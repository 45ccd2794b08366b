import TestUnion.Compilebench.NativeSpec
import TestUnion.Compilebench.Ops

/-!
# compilebench: what one step does

* `kernelDir n`     the name `kernel-n` as a proper file name;
* `Op.pick`, `Op.sources`, `Op.moves`, `Op.work`   the draw of an operation, the hashes it chooses
                    from, the moves it can make, and the function it runs on the tree for a move;
* `moveOneDir_cases`, `visitOneDir_cases`, `deleteOneDir_cases`   everything a returned call of
                    these has done;
* `Done`            everything an operation that returned can have done;
* `Effect`, `Step.effect`   the same for a step, the rounds of the initial loop included;
* `init_spec`, `init_lists`   what `dataset.__init__` leaves of the tree and of the datasets.
-/

namespace Compilebench

open FileTree PosixPath PosixCalls ExceptLoop

variable {env : Env} {N : ℕ} {s s' : State}

/-! ## names and hashes -/

def kernelDir (n : ℕ) : Name := ⟨kernelName n, isName_number (by decide) (by decide) n⟩

theorem kernelName_injective : Function.Injective kernelName := fun _ _ h => number_injective h

theorem kernelName_ne_nil (n : ℕ) : kernelName n ≠ [] := (kernelDir n).2.1

@[simp] theorem mem_set {hash hash' : Hash} {dir x : Str} :
    x ∈ (s.set hash dir).dirs hash' ↔ (hash' = hash ∧ x = dir) ∨ x ∈ s.dirs hash' := by
  show x ∈ Function.update s.dirs hash (insert dir (s.dirs hash)) hash' ↔ _
  by_cases h : hash' = hash
  · subst h
    rw [Function.update_self, Finset.mem_insert]
    simp
  · rw [Function.update_of_ne h]
    simp [h]

@[simp] theorem mem_del {hash hash' : Hash} {dir x : Str} :
    x ∈ (s.del hash dir).dirs hash' ↔ x ∈ s.dirs hash' ∧ ¬ (hash' = hash ∧ x = dir) := by
  show x ∈ Function.update s.dirs hash ((s.dirs hash).erase dir) hash' ↔ _
  by_cases h : hash' = hash
  · subst h
    rw [Function.update_self, Finset.mem_erase]
    simp [and_comm]
  · rw [Function.update_of_ne h]
    simp [h]

/-! ## the operations -/

def Op.pick : Op → Option Pick
  | .patch p _ _ => some p
  | .compile p _ => some p
  | .clean p _ => some p
  | .delete p _ => some p
  | .create _ _ => none
  | .read p _ => some p
  | .stat p _ => some p

def Op.moves (data : Data) : Op → List Move
  | .patch _ _ _ => patchOp data
  | .compile _ _ => compileOp data
  | .clean _ _ => cleanOp data
  | _ => []

def Op.sources : Op → List Hash
  | .patch _ _ _ => [.unpatched, .unpatchedCompiled]
  | .compile _ _ => [.unpatched, .patched]
  | .clean _ _ => [.patchedCompiled, .unpatchedCompiled]
  | .create _ _ => []
  | _ => allHashes

def Op.work (env : Env) : Op → Entries → Str → Disk → Except Exn Disk
  | .patch _ draw clock => fun dataset dir t =>
    if draw ≤ 3 then runDirectory env dataset dir (draw = 1) true clock t else .error .noDraw
  | .compile _ clock => fun dataset dir t => runDirectory env dataset dir false false clock t
  | .clean _ clock => fun dataset dir t => cleanDirectory env dataset dir clock t
  | _ => fun _ _ _ => .error .noDraw

/-- Only three operations work on a directory that is there. -/
theorem work_ok {dataset : Entries} {dir : Str} {t t' : Disk} {o : Op}
    (h : o.work env dataset dir t = .ok t') :
    (∃ p draw clock, o = .patch p draw clock ∧
        runDirectory env dataset dir (draw = 1) true clock t = .ok t') ∨
      (∃ p clock, o = .compile p clock ∧ runDirectory env dataset dir false false clock t = .ok t') ∨
      ∃ p clock, o = .clean p clock ∧ cleanDirectory env dataset dir clock t = .ok t' := by
  cases o with
  | patch p draw clock =>
    have h' : (if draw ≤ 3 then runDirectory env dataset dir (draw = 1) true clock t
      else .error .noDraw) = .ok t' := h
    split at h'
    · exact .inl ⟨p, draw, clock, rfl, h'⟩
    · cases h'
  | compile p clock => exact .inr (.inl ⟨p, clock, rfl, h⟩)
  | clean p clock => exact .inr (.inr ⟨p, clock, rfl, h⟩)
  | delete p clock => cases h
  | create draws clock => cases h
  | read p clock => cases h
  | stat p clock => cases h

theorem moves_ne {data : Data} {o : Op} {ch : Move} (h : ch ∈ o.moves data) :
    ch.source ≠ ch.dest := by
  cases o <;> simp only [Op.moves, patchOp, compileOp, cleanOp, List.mem_cons, List.not_mem_nil,
    or_false] at h <;> rcases h with rfl | rfl <;> exact Hash.noConfusion

theorem mem_allHashes (hash : Hash) : hash ∈ allHashes := by
  cases hash <;> decide

/-- What the operation `o` has done when it returned `ret`. -/
inductive Done (env : Env) (s s' : State) : Op → ℕ → Prop
  | move {o p ch} (pick : o.pick = some p)
      (chosen : (goodMoves s (o.moves s.data))[p.index]? = some ch)
      (mem : p.dir ∈ s.dirs ch.source) (ran : o.work env ch.dataset p.dir s.disk = .ok s'.disk)
      (dirs : s'.dirs = ((s.del ch.source p.dir).set ch.dest p.dir).dirs) : Done env s s' o 1
  | delete {p clock hash} (mem : p.dir ∈ s.dirs hash) (ran : rmrf env p.dir s.disk = .ok s'.disk)
      (dirs : s'.dirs = (s.del hash p.dir).dirs) : Done env s s' (.delete p clock) 1
  | create {draws clock n} (last : draws.getLast? = some n)
      (new : «exists» s.disk (join env.benchdir (kernelName n)) = false)
      (ran : runDirectory env s.data.unpatched (kernelName n) false false clock s.disk
        = .ok s'.disk)
      (dirs : s'.dirs = (s.set .unpatched (kernelName n)).dirs) : Done env s s' (.create draws clock) 1
  | visit {o} (kind : (∃ p clock, o = .read p clock) ∨ ∃ p clock, o = .stat p clock)
      (disk : s'.disk = s.disk) (dirs : s'.dirs = s.dirs) : Done env s s' o 1
  | idle {o} (picks : o.pick ≠ none) (same : s' = s)
      (why : (∃ hash, [] ∈ s.dirs hash) ∨ ∀ hash ∈ o.sources, s.dirs hash = ∅) : Done env s s' o 0

/-- What an operation leaves alone: the datasets and the count of the initial loop. -/
def Fixed (s s' : State) : Prop := s'.data = s.data ∧ s'.initial = s.initial

theorem pick_ok {α : Type} {good : List α} {dirs : α → Finset Str} {p : Pick} {ch : α} {dir : Str} :
    pick good dirs p = .ok (ch, dir) ↔
      good[p.index]? = some ch ∧ p.dir ∈ dirs ch ∧ dir = p.dir := by
  unfold pick
  cases hg : good[p.index]? with
  | none => simp
  | some x =>
    simp only [Option.some.injEq]
    split
    · next h =>
      refine ⟨?_, ?_⟩
      · intro he
        cases he
        exact ⟨rfl, h, rfl⟩
      · intro hex
        obtain ⟨rfl, _, rfl⟩ := hex
        rfl
    · next h =>
      refine ⟨?_, ?_⟩
      · intro he
        cases he
      · intro hall
        obtain ⟨rfl, hm, _⟩ := hall
        exact absurd hm h

theorem pick_error {α : Type} {good : List α} {dirs : α → Finset Str} {p : Pick} {x : Exn}
    (h : pick good dirs p = .error x) : x = .noDraw := by
  unfold pick at h
  split at h
  · cases h
    rfl
  · split at h
    · cases h
    · cases h
      rfl

/-- There is nothing to choose from, or the rest of the operation gets what was chosen. -/
theorem picked_ok {α β : Type} {good : List α} {dirs : α → Finset Str} {p : Pick} {idle r : β}
    {rest : α × Str → Except Exn β}
    (h : (if good.length = 0 then .ok idle else pick good dirs p >>= rest) = .ok r) :
    (good.length = 0 ∧ r = idle) ∨
      ∃ ch, good[p.index]? = some ch ∧ p.dir ∈ dirs ch ∧ rest (ch, p.dir) = .ok r := by
  split at h
  · next hg =>
    cases h
    exact .inl ⟨hg, rfl⟩
  · rw [bind_eq_ok] at h
    obtain ⟨⟨ch, dir⟩, hpick, h⟩ := h
    obtain ⟨hch, hmem, rfl⟩ := pick_ok.mp hpick
    exact .inr ⟨ch, hch, hmem, h⟩

theorem goodMoves_empty {op : List Move} (h : (goodMoves s op).length = 0) :
    ∀ ch ∈ op, s.dirs ch.source = ∅ := by
  intro ch hch
  have hnil := List.eq_nil_of_length_eq_zero h
  have := List.filter_eq_nil_iff.mp hnil ch hch
  simpa using this

theorem goodHashes_empty (h : (goodHashes s).length = 0) : ∀ hash, s.dirs hash = ∅ := by
  intro hash
  have hnil := List.eq_nil_of_length_eq_zero h
  have := List.filter_eq_nil_iff.mp hnil hash (mem_allHashes hash)
  simpa using this

/-- What a returned call has done: there was nothing to choose from, the name is empty, or the
directory has moved. -/
theorem moveOneDir_cases {op : List Move} {work : Entries → Str → Disk → Except Exn Disk}
    {counter : Stat} {p : Pick} {clock : Clock} {ret : ℕ}
    (h : moveOneDir op work counter p clock s = .ok (ret, s')) :
    (ret = 0 ∧ s' = s ∧ (goodMoves s op).length = 0) ∨
      (ret = 0 ∧ s' = s ∧ ∃ ch, [] ∈ s.dirs ch) ∨
      ∃ ch t, (goodMoves s op)[p.index]? = some ch ∧ p.dir ∈ s.dirs ch.source ∧
        work ch.dataset p.dir s.disk = .ok t ∧ ret = 1 ∧
        s' = (({ s with disk := t }.del ch.source p.dir).set ch.dest p.dir).addTimes counter
          clock := by
  rcases picked_ok h with ⟨hg, hidle⟩ | ⟨ch, hch, hmem, h⟩
  · cases hidle
    exact .inl ⟨rfl, rfl, hg⟩
  · dsimp only at h
    split at h
    · next hnil =>
      cases h
      rw [hnil] at hmem
      exact .inr (.inl ⟨rfl, rfl, _, hmem⟩)
    · rw [bind_eq_ok] at h
      obtain ⟨t, ht, h⟩ := h
      cases h
      exact .inr (.inr ⟨ch, t, hch, hmem, ht, rfl, rfl⟩)

theorem moveOneDir_done {o : Op} {p : Pick} {counter : Stat} {clock : Clock} {ret : ℕ}
    (hp : o.pick = some p) (hs : o.sources = (o.moves s.data).map Move.source)
    (h : moveOneDir (o.moves s.data) (o.work env) counter p clock s = .ok (ret, s')) :
    Done env s s' o ret ∧ Fixed s s' := by
  have hpick : o.pick ≠ none := by
    rw [hp]
    exact Option.some_ne_none p
  rcases moveOneDir_cases h with ⟨rfl, rfl, hg⟩ | ⟨rfl, rfl, hnil⟩ |
    ⟨ch, t, hch, hmem, ht, rfl, rfl⟩
  · refine ⟨.idle hpick rfl (.inr ?_), rfl, rfl⟩
    intro hash hmem
    rw [hs] at hmem
    obtain ⟨ch, hch, rfl⟩ := List.mem_map.mp hmem
    exact goodMoves_empty hg ch hch
  · exact ⟨.idle hpick rfl (.inl hnil), rfl, rfl⟩
  · exact ⟨.move hp hch hmem ht rfl, rfl, rfl⟩

/-- The test that `clean_one_dir` makes a second time never fails. -/
theorem cleanOneDir_eq (p : Pick) (clock : Clock) :
    cleanOneDir env p clock s
      = moveOneDir (cleanOp s.data) (fun dataset dir t => cleanDirectory env dataset dir clock t)
        .clean p clock s := by
  unfold cleanOneDir moveOneDir pick
  simp only
  split
  · rfl
  · cases hg : (goodMoves s (cleanOp s.data))[p.index]? with
    | none => rfl
    | some ch =>
      have hpos : 0 < (s.dirs ch.source).card := by
        have := List.of_mem_filter (List.mem_of_getElem? hg)
        simpa using this
      simp only
      rw [if_neg (Nat.pos_iff_ne_zero.mp hpos)]
      by_cases hmem : p.dir ∈ s.dirs ch.source
      · rw [if_neg (not_not.mpr hmem), if_pos hmem]
        rfl
      · rw [if_pos hmem, if_neg hmem]
        rfl

theorem visitOneDir_cases {work : Str → Disk → Except Exn Unit} {plain compiled : Stat} {p : Pick}
    {clock : Clock} {ret : ℕ} (h : visitOneDir work plain compiled p clock s = .ok (ret, s')) :
    (ret = 0 ∧ s' = s ∧ ∀ hash, s.dirs hash = ∅) ∨
      ∃ ch, p.dir ∈ s.dirs ch ∧ work p.dir s.disk = .ok () ∧ ret = 1 ∧
        s' = s.addTimes (if looksCompiled s ch then compiled else plain) clock := by
  rcases picked_ok h with ⟨hg, hidle⟩ | ⟨ch, _, hmem, h⟩
  · cases hidle
    exact .inl ⟨rfl, rfl, goodHashes_empty hg⟩
  · rw [bind_eq_ok] at h
    obtain ⟨_, hwork, h⟩ := h
    cases h
    refine .inr ⟨ch, hmem, hwork, rfl, ?_⟩
    split <;> rfl

theorem visitOneDir_done {work : Str → Disk → Except Exn Unit} {plain compiled : Stat} {p : Pick}
    {clock : Clock} {ret : ℕ} {o : Op}
    (ho : (∃ p clock, o = .read p clock) ∨ ∃ p clock, o = .stat p clock)
    (h : visitOneDir work plain compiled p clock s = .ok (ret, s')) :
    Done env s s' o ret ∧ Fixed s s' := by
  rcases visitOneDir_cases h with ⟨rfl, rfl, hempty⟩ | ⟨ch, _, _, rfl, rfl⟩
  · refine ⟨.idle ?_ rfl (.inr fun hash _ => hempty hash), rfl, rfl⟩
    rcases ho with ⟨p, clock, rfl⟩ | ⟨p, clock, rfl⟩ <;> exact Option.some_ne_none p
  · exact ⟨.visit ho rfl rfl, rfl, rfl⟩

theorem deleteOneDir_cases {p : Pick} {clock : Clock} {ret : ℕ}
    (h : deleteOneDir env p clock s = .ok (ret, s')) :
    (ret = 0 ∧ s' = s ∧ ∀ hash, s.dirs hash = ∅) ∨
      ∃ ch t, p.dir ∈ s.dirs ch ∧ rmrf env p.dir s.disk = .ok t ∧ ret = 1 ∧
        s' = ({ s with disk := t }.del ch p.dir).addTimes
          (if looksCompiled (s.del ch p.dir) ch then .deleteCompiled else .delete) clock := by
  rcases picked_ok h with ⟨hg, hidle⟩ | ⟨ch, _, hmem, h⟩
  · cases hidle
    exact .inl ⟨rfl, rfl, goodHashes_empty hg⟩
  · rw [bind_eq_ok] at h
    obtain ⟨t, ht, h⟩ := h
    cases h
    refine .inr ⟨ch, t, hmem, ht, rfl, ?_⟩
    -- the tree has no part in the comparison
    have hlook : looksCompiled ({ s with disk := t }.del ch p.dir) ch ↔
        looksCompiled (s.del ch p.dir) ch := Iff.rfl
    by_cases hc : looksCompiled (s.del ch p.dir) ch
    · rw [if_pos (hlook.mpr hc), if_pos hc]
    · rw [if_neg (hlook.not.mpr hc), if_neg hc]

theorem deleteOneDir_done {p : Pick} {clock : Clock} {ret : ℕ}
    (h : deleteOneDir env p clock s = .ok (ret, s')) :
    Done env s s' (.delete p clock) ret ∧ Fixed s s' := by
  rcases deleteOneDir_cases h with ⟨rfl, rfl, hempty⟩ | ⟨ch, t, hmem, ht, rfl, rfl⟩
  · exact ⟨.idle (Option.some_ne_none p) rfl (.inr fun hash _ => hempty hash), rfl, rfl⟩
  · exact ⟨.delete hmem ht rfl, rfl, rfl⟩

theorem freeKernel_ok {t : Disk} {draws : List ℕ} {name : Str}
    (h : freeKernel env t draws = .ok name) :
    ∃ n, draws.getLast? = some n ∧ name = kernelName n ∧
      «exists» t (join env.benchdir (kernelName n)) = false := by
  induction draws with
  | nil => cases h
  | cons draw draws ih =>
    unfold freeKernel at h
    split at h
    · cases h
    · split at h
      · obtain ⟨n, hlast, hn⟩ := ih h
        refine ⟨n, ?_, hn⟩
        rw [List.getLast?_cons, hlast]
        rfl
      · next hx =>
        split at h
        · next hd =>
          cases h
          exact ⟨draw, by rw [hd]; rfl, rfl, Bool.eq_false_iff.mpr hx⟩
        · cases h

theorem createOneDir_done {draws : List ℕ} {clock : Clock} {ret : ℕ}
    (h : createOneDir env draws clock s = .ok (ret, s')) :
    Done env s s' (.create draws clock) ret ∧ Fixed s s' := by
  unfold createOneDir at h
  simp only [bind_eq_ok] at h
  obtain ⟨name, hname, t, ht, h⟩ := h
  obtain ⟨n, hlast, rfl, hnew⟩ := freeKernel_ok hname
  cases h
  exact ⟨.create hlast hnew ht rfl, rfl, rfl⟩

theorem Op.run_done {o : Op} {ret : ℕ} (h : o.run env s = .ok (ret, s')) :
    Done env s s' o ret ∧ Fixed s s' := by
  cases o with
  | patch p draw clock => exact moveOneDir_done rfl rfl h
  | compile p clock => exact moveOneDir_done rfl rfl h
  | clean p clock =>
    have h' : cleanOneDir env p clock s = .ok (ret, s') := h
    rw [cleanOneDir_eq] at h'
    exact moveOneDir_done rfl rfl h'
  | delete p clock => exact deleteOneDir_done h
  | create draws clock => exact createOneDir_done h
  | read p clock =>
    have h' : readOneDir env p clock s = .ok (ret, s') := h
    exact visitOneDir_done (.inl ⟨p, clock, rfl⟩) h'
  | stat p clock =>
    have h' : statOneDir env p clock s = .ok (ret, s') := h
    exact visitOneDir_done (.inr ⟨p, clock, rfl⟩) h'

/-! ## steps -/

inductive Effect (env : Env) (N : ℕ) (s s' : State) : Act → Prop
  | initial {clock} (lt : s.initial < N)
      (ran : runDirectory env s.data.unpatched (kernelName s.initial) false false clock s.disk
        = .ok s'.disk)
      (dirs : s'.dirs = (s.set .unpatched (kernelName s.initial)).dirs)
      (next : s'.initial = s.initial + 1) : Effect env N s s' (.initial clock)
  | op {o ret} (all : s.initial = N) (next : s'.initial = s.initial) (done : Done env s s' o ret) :
    Effect env N s s' (.op o ret)

theorem Step.effect {a : Act} (h : Step env N s a s') :
    Effect env N s s' a ∧ s'.data = s.data := by
  cases h with
  | initial lt run =>
    unfold createInitial at run
    simp only [bind_eq_ok] at run
    obtain ⟨t, ht, run⟩ := run
    cases run
    exact ⟨.initial lt ht rfl rfl, rfl⟩
  | op all run =>
    obtain ⟨hdone, hdata, hnext⟩ := Op.run_done run
    exact ⟨.op all hnext hdone, hdata⟩

/-! ## dataset.__init__ -/

theorem lookup_stripNamed {xs : List Str} {d : Dataset} {x : Str} :
    (stripNamed xs d).lookup x = if x ∈ xs then none else d.lookup x := by
  unfold stripNamed
  induction xs generalizing d with
  | nil => rfl
  | cons y xs ih =>
    rw [List.foldl_cons, ih]
    by_cases hx : x ∈ xs
    · rw [if_pos hx, if_pos (List.mem_cons_of_mem _ hx)]
    · rw [if_neg hx]
      by_cases hxy : x = y
      · subst hxy
        rw [Finmap.lookup_erase, if_pos (List.mem_cons_self ..)]
      · rw [Finmap.lookup_erase_ne hxy, if_neg]
        exact List.not_mem_cons_of_ne_of_not_mem hxy hx

theorem lookup_stripSame {xs : List Str} {ref d : Dataset} {x : Str} :
    (stripSame xs ref d).lookup x
      = if x ∈ xs ∧ d.lookup x = ref.lookup x then none else d.lookup x := by
  unfold stripSame
  induction xs generalizing d with
  | nil => simp
  | cons y xs ih =>
    rw [List.foldl_cons, ih]
    by_cases hxy : x = y
    · subst hxy
      by_cases hsame : x ∈ d ∧ d.lookup x = ref.lookup x
      · rw [if_pos hsame, Finmap.lookup_erase, ite_self, if_pos ⟨List.mem_cons_self .., hsame.2⟩]
      · rw [if_neg hsame]
        by_cases heq : d.lookup x = ref.lookup x
        · -- a name that is in neither dict
          have hnone : d.lookup x = none :=
            Finmap.lookup_eq_none.mpr fun hmem => hsame ⟨hmem, heq⟩
          rw [hnone, ite_self, ite_self]
        · rw [if_neg fun h => heq h.2, if_neg fun h => heq h.2]
    · have hkeep : (if y ∈ d ∧ d.lookup y = ref.lookup y then d.erase y else d).lookup x
          = d.lookup x := by
        split
        · exact Finmap.lookup_erase_ne hxy
        · rfl
      rw [hkeep]
      simp [hxy]

section
variable {q : Quadruple} {x : Str} {sz : Size}

theorem lookup_reducedUnpatchedCompiled :
    (reducedUnpatchedCompiled env q).lookup x = some sz ↔
      q.unpatchedCompiled.lookup x = some sz ∧ x ∉ q.unpatched := by
  unfold reducedUnpatchedCompiled
  rw [lookup_stripNamed]
  split
  · next h => simp [(env.mem_keys _ _).mp h]
  · next h => simp [(env.mem_keys _ _).not.mp h]

theorem lookup_reducedPatched :
    (reducedPatched env q).lookup x = some sz ↔
      q.patched.lookup x = some sz ∧ q.unpatched.lookup x ≠ some sz := by
  unfold reducedPatched
  rw [lookup_stripSame]
  split
  · next h =>
    rw [h.2]
    simp
  · next h =>
    refine ⟨fun hx => ⟨hx, fun hu => h ⟨?_, by rw [hx, hu]⟩⟩, fun hx => hx.1⟩
    exact (env.mem_keys _ _).mpr (Finmap.mem_of_lookup_eq_some hu)

theorem lookup_reducedCompiled :
    (reducedCompiled env q).lookup x = some sz ↔
      q.compiled.lookup x = some sz ∧ x ∉ q.patched ∧
        (reducedUnpatchedCompiled env q).lookup x ≠ some sz := by
  unfold reducedCompiled
  rw [lookup_stripSame, lookup_stripNamed]
  by_cases hp : x ∈ q.patched
  · rw [if_pos ((env.mem_keys _ _).mpr hp), ite_self]
    simp [hp]
  rw [if_neg ((env.mem_keys _ _).not.mpr hp)]
  split
  · next h =>
    rw [h.2]
    refine ⟨?_, ?_⟩
    · intro hx
      cases hx
    · intro hx
      exact absurd hx.1 hx.2.2
  · next h =>
    refine ⟨fun hx => ⟨hx, hp, fun hu => h ⟨?_, by rw [hx, hu]⟩⟩, fun hx => hx.1⟩
    exact (env.mem_keys _ _).mpr (Finmap.mem_of_lookup_eq_some hu)

/-- All names of the datasets are local. -/
def Data.Inside (data : Data) : Prop :=
  ∀ e, e ∈ data.unpatched ∨ e ∈ data.patched ∨ e ∈ data.unpatchedCompiled ∨ e ∈ data.compiled →
    Local e.1

/-- The lists hold what is left of the four datasets. -/
structure Data.Of (env : Env) (q : Quadruple) (data : Data) : Prop where
  unpatched : Lists data.unpatched q.unpatched
  patched : Lists data.patched (reducedPatched env q)
  unpatchedCompiled : Lists data.unpatchedCompiled (reducedUnpatchedCompiled env q)
  compiled : Lists data.compiled (reducedCompiled env q)

def Quadruple.Normal (q : Quadruple) : Prop :=
  ∀ x, x ∈ q.unpatched ∨ x ∈ q.patched ∨ x ∈ q.unpatchedCompiled ∨ x ∈ q.compiled →
    PosixPath.Normal x

/-- No listed file is a directory on the way to another one. -/
def Quadruple.PrefixFree (q : Quadruple) : Prop :=
  ∀ x, x ∈ q.unpatched ∨ x ∈ q.patched ∨ x ∈ q.unpatchedCompiled ∨ x ∈ q.compiled →
    ∀ y, y ∈ q.unpatched ∨ y ∈ q.patched ∨ y ∈ q.unpatchedCompiled ∨ y ∈ q.compiled →
      ¬ x ++ ['/'] <+: y

theorem mem_of_reduced :
    (x ∈ reducedPatched env q → x ∈ q.patched) ∧
      (x ∈ reducedUnpatchedCompiled env q → x ∈ q.unpatchedCompiled) ∧
      (x ∈ reducedCompiled env q → x ∈ q.compiled) := by
  have key (d d' : Dataset) (h : ∀ sz, d.lookup x = some sz → d'.lookup x = some sz) (hx : x ∈ d) :
      x ∈ d' := by
    obtain ⟨sz, hsz⟩ := Option.isSome_iff_exists.mp (Finmap.lookup_isSome.mpr hx)
    exact Finmap.mem_of_lookup_eq_some (h sz hsz)
  exact ⟨key _ _ fun sz h => (lookup_reducedPatched.mp h).1,
    key _ _ fun sz h => (lookup_reducedUnpatchedCompiled.mp h).1,
    key _ _ fun sz h => (lookup_reducedCompiled.mp h).1⟩

variable {t t' : Disk} {clocks : Clock × Clock × Clock} {data : Data}

theorem init_ok (h : init env q clocks t = .ok (data, t')) :
    ∃ t1 t2, nativeOrder env q.unpatched clocks.1 t = .ok (data.unpatched, t1) ∧
      nativeOrder env (reducedPatched env q) clocks.2.1 t1 = .ok (data.patched, t2) ∧
      randomOrder env (reducedUnpatchedCompiled env q) = .ok data.unpatchedCompiled ∧
      nativeOrder env (reducedCompiled env q) clocks.2.2 t2 = .ok (data.compiled, t') := by
  unfold init at h
  simp only [bind_eq_ok] at h
  obtain ⟨⟨_, t1⟩, h1, ⟨_, t2⟩, h2, _, h3, ⟨_, t3⟩, h4, h⟩ := h
  cases h
  exact ⟨t1, t2, h1, h2, h3, h4⟩

theorem init_spec (hb : t.get env.base = some .dir) (h : init env q clocks t = .ok (data, t')) :
    t' = t ∧ data.Inside := by
  obtain ⟨t1, t2, h1, h2, h3, h4⟩ := init_ok h
  obtain ⟨rfl, hu⟩ := nativeOrder_disk hb (fun x hx => q.inside x (.inl hx)) h1
  obtain ⟨rfl, hp⟩ := nativeOrder_disk hb
    (fun x hx => q.inside x (.inr (.inl (mem_of_reduced.1 hx)))) h2
  obtain ⟨rfl, hc⟩ := nativeOrder_disk hb
    (fun x hx => q.inside x (.inr (.inr (.inr (mem_of_reduced.2.2 hx))))) h4
  refine ⟨rfl, ?_⟩
  have hmem {l : Entries} {d : Dataset} (ha : Agrees l d) {e : Str × Size} (he : e ∈ l) : e.1 ∈ d :=
    Finmap.mem_of_lookup_eq_some (ha e he)
  rintro e (he | he | he | he)
  · exact q.inside _ (.inl (hmem hu he))
  · exact q.inside _ (.inr (.inl (mem_of_reduced.1 (hmem hp he))))
  · exact q.inside _ (.inr (.inr (.inl (mem_of_reduced.2.1
      (hmem (randomOrder_lists h3).agrees he)))))
  · exact q.inside _ (.inr (.inr (.inr (mem_of_reduced.2.2 (hmem hc he)))))

theorem init_lists (hb : t.get env.base = some .dir) (hn : q.Normal)
    (h : init env q clocks t = .ok (data, t')) : data.Of env q := by
  obtain ⟨t1, t2, h1, h2, h3, h4⟩ := init_ok h
  obtain ⟨rfl, _⟩ := nativeOrder_disk hb (fun x hx => q.inside x (.inl hx)) h1
  obtain ⟨rfl, _⟩ := nativeOrder_disk hb
    (fun x hx => q.inside x (.inr (.inl (mem_of_reduced.1 hx)))) h2
  exact ⟨nativeOrder_lists hb (fun x hx => hn x (.inl hx)) h1,
    nativeOrder_lists hb (fun x hx => hn x (.inr (.inl (mem_of_reduced.1 hx)))) h2,
    randomOrder_lists h3,
    nativeOrder_lists hb (fun x hx => hn x (.inr (.inr (.inr (mem_of_reduced.2.2 hx))))) h4⟩

end

end Compilebench
