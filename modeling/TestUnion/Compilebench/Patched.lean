import TestUnion.Compilebench.Contents

/-!
# compilebench: the patched trees, and what is written

* `Has d f`         the files `f` include those of the dataset `d`, with their sizes;
* `RightTrees`      every directory that a hash calls patched has the files of that state;
* `Completes`       the stored difference makes a tree complete that the step moves to such a hash;
* `patched_iff`     the hashes are right along a run exactly when every step completes its tree;
* `Wrote`, `Appends`   a call of `run_directory` has left the listed sizes; a compile that appends
                    to files which are not empty;
* `wrote_iff`       a step leaves the listed sizes exactly when it does not append.
-/

namespace Compilebench

open FileTree PosixPath PosixCalls Lts

variable {env : Env} {N : ℕ} {s s' : State} {t t' : Disk} {a : Act} {q : Quadruple} {data : Data}
  {f : Path → Option ℕ}

/-! ## the patched trees -/

def Has (d : Dataset) (f : Path → Option ℕ) : Prop :=
  ∀ x sz, d.lookup x = some sz → f (pathOf x) = some sz.int

def RightTree (q : Quadruple) : Hash → (Path → Option ℕ) → Prop
  | .patched, f => Has q.patched f
  | .patchedCompiled, f => Has q.compiled f
  | _, _ => True

def RightTrees (env : Env) (q : Quadruple) (s : State) : Prop :=
  ∀ hash, ∀ dir ∈ s.dirs hash, RightTree q hash (contents env s.disk dir)

/-- For an operation on a directory of the hash with the files `f`:
* a patch of an unpatched compiled tree finds the files of the compiled dataset that are not in
  the reduced one, with their sizes;
* a compile of a patched tree finds these too, and none of the others, or only empty ones;
* a clean of a patched compiled tree finds the files of the patched dataset, with their sizes. -/
def Op.Completes (q : Quadruple) (data : Data) (f : Path → Option ℕ) : Op → Hash → Prop
  | .patch _ _ _, .unpatchedCompiled => ∀ x sz, q.compiled.lookup x = some sz →
    (x, sz) ∉ data.compiled → f (pathOf x) = some sz.int
  | .compile _ _, .patched => ∀ x sz, q.compiled.lookup x = some sz →
    if (x, sz) ∈ data.compiled then (f (pathOf x)).getD 0 = 0 else f (pathOf x) = some sz.int
  | .clean _ _, .patchedCompiled => Has q.patched f
  | _, _ => True

def Completes (env : Env) (q : Quadruple) (s : State) (a : Act) : Prop :=
  ∀ o ret p hash, a = .op o ret → o.pick = some p → p.dir ∈ s.dirs hash →
    o.Completes q s.data (contents env s.disk p.dir) hash

section
variable (hq : q.Normal) (hof : data.Of env q)
include hq hof

theorem patch_has (h : Shows data.unpatched f) : Has q.patched (written true [] data.patched f) := by
  intro x sz hx
  have hd := hof.sound hq
  have hxn : Normal x := hq x (.inr (.inl (Finmap.mem_of_lookup_eq_some hx)))
  by_cases hu : q.unpatched.lookup x = some sz
  · rw [written_other hd.patched hxn]
    · exact (h _ _).mpr ⟨(x, sz), (hof.unpatched.mem x sz).mpr hu, rfl, rfl⟩
    · intro sz' hmem
      obtain ⟨hx', hu'⟩ := lookup_reducedPatched.mp ((hof.patched.mem x sz').mp hmem)
      rw [hx] at hx'
      rw [Option.some.inj hx'] at hu
      exact hu' hu
  · have hmem := (hof.patched.mem x sz).mpr (lookup_reducedPatched.mpr ⟨hx, hu⟩)
    rw [written_at hd.patched hmem]
    exact congrArg some (Nat.zero_add _)

theorem clean_has : Has q.patched (removed [] data.compiled f) ↔ Has q.patched f := by
  have key (x : Str) (sz : Size) (hx : q.patched.lookup x = some sz) :
      removed [] data.compiled f (pathOf x) = f (pathOf x) := by
    have hmem := Finmap.mem_of_lookup_eq_some hx
    apply removed_other (hof.sound hq).compiled (hq x (.inr (.inl hmem)))
    intro sz' hc
    exact (lookup_reducedCompiled.mp ((hof.compiled.mem x sz').mp hc)).2.1 hmem
  refine ⟨?_, ?_⟩
  · intro h x sz hx
    rw [← key x sz hx]
    exact h x sz hx
  · intro h x sz hx
    rw [key x sz hx]
    exact h x sz hx

/-- What a write of the reduced compiled dataset makes of a file of the whole one. -/
theorem written_compiled (fresh : Bool) {x : Str} {sz : Size} (hx : q.compiled.lookup x = some sz) :
    written fresh [] data.compiled f (pathOf x) = some sz.int ↔
      if (x, sz) ∈ data.compiled then fresh = true ∨ (f (pathOf x)).getD 0 = 0
      else f (pathOf x) = some sz.int := by
  have hd := hof.sound hq
  by_cases hmem : (x, sz) ∈ data.compiled
  · rw [if_pos hmem, written_at hd.compiled hmem, Option.some.injEq]
    unfold newSize
    cases fresh <;> simp
  · rw [if_neg hmem, written_other hd.compiled]
    · exact hq x (.inr (.inr (.inr (Finmap.mem_of_lookup_eq_some hx))))
    · intro sz' hmem'
      have hx' := (lookup_reducedCompiled.mp ((hof.compiled.mem x sz').mp hmem')).1
      rw [hx] at hx'
      rw [Option.some.inj hx'] at hmem
      exact hmem hmem'

/-- A move makes a right tree exactly when the stored difference completes it. -/
theorem moved_iff {o : Op} {ch : Move} (hch : ch ∈ o.moves data) (hk : Kind data ch.source f) :
    RightTree q ch.dest (o.change ch.dataset f) ↔ o.Completes q data f ch.source := by
  cases o with
  | patch p draw clock =>
    rcases List.mem_pair.mp hch with rfl | rfl
    · exact iff_of_true (patch_has hq hof hk) trivial
    · show (∀ x sz, _ → _) ↔ ∀ x sz, _ → _
      refine forall₂_congr fun x sz => forall_congr' fun hx => ?_
      rw [show Op.change (.patch p draw clock) data.compiled f = written true [] data.compiled f
        from rfl, written_compiled hq hof true hx]
      by_cases hmem : (x, sz) ∈ data.compiled
      · simp [hmem]
      · simp [hmem]
  | compile p clock =>
    rcases List.mem_pair.mp hch with rfl | rfl
    · exact iff_of_true trivial trivial
    · show (∀ x sz, _ → _) ↔ ∀ x sz, _ → _
      refine forall₂_congr fun x sz => forall_congr' fun hx => ?_
      rw [show Op.change (.compile p clock) data.compiled f = written false [] data.compiled f
        from rfl, written_compiled hq hof false hx]
      simp
  | clean p clock =>
    rcases List.mem_pair.mp hch with rfl | rfl
    · exact clean_has hq hof
    · exact iff_of_true trivial trivial
  | delete p clock => cases hch
  | create draws clock => cases hch
  | read p clock => cases hch
  | stat p clock => cases hch

end

/-- An operation that returned 0 found nothing in its hashes. -/
theorem idle_empty (hb : Books env N s) {o : Op}
    (why : (∃ hash, [] ∈ s.dirs hash) ∨ ∀ hash ∈ o.sources, s.dirs hash = ∅) {hash : Hash}
    {dir : Str} (hdir : dir ∈ s.dirs hash) : hash ∉ o.sources := by
  intro hmem
  rcases why with ⟨hash', hnil⟩ | hempty
  · exact hb.ne_nil hash' hnil
  · rw [hempty hash hmem] at hdir
    cases hdir

/-- Only a move has something to complete. -/
theorem completes_of_not_source {o : Op} {hash : Hash} (h : hash ∉ o.sources ∨ o.moves data = []) :
    o.Completes q data f hash := by
  cases o with
  | patch p draw clock =>
    rcases h with h | h
    · cases hash <;> first | trivial | exact absurd (by simp [Op.sources]) h
    · cases h
  | compile p clock =>
    rcases h with h | h
    · cases hash <;> first | trivial | exact absurd (by simp [Op.sources]) h
    · cases h
  | clean p clock =>
    rcases h with h | h
    · cases hash <;> first | trivial | exact absurd (by simp [Op.sources]) h
    · cases h
  | delete p clock => cases hash <;> trivial
  | create draws clock => cases hash <;> trivial
  | read p clock => cases hash <;> trivial
  | stat p clock => cases hash <;> trivial

theorem rightTrees_step (hq : q.Normal) (hof : data.Of env q)
    (hh : Holds env N data (Kind data) s) (hr : RightTrees env q s) (h : Effect env N s s' a) :
    RightTrees env q s' ↔ Completes env q s a := by
  refine ⟨?_, ?_⟩
  · intro hr' o ret p hash ha hp hdir
    cases h with
    | initial lt ran dirs next => cases ha
    | @op o' ret' all next done =>
      cases ha
      cases done with
      | @move _ p' ch pick chosen mem ran dirs =>
        rw [pick] at hp
        cases hp
        have hch := chosen_mem chosen
        have hsource := hh.unique _ _ _ hdir mem
        subst hsource
        have hmem : p.dir ∈ s'.dirs ch.dest := by
          rw [dirs, mem_set]
          exact .inl ⟨rfl, rfl⟩
        have hright := hr' _ _ hmem
        rw [moved_contents hh.toBooks hch mem ran] at hright
        have hkind := hh.all _ _ mem
        rw [hh.data_eq] at hch ⊢
        exact (moved_iff hq hof hch hkind).mp hright
      | delete mem ran dirs => exact completes_of_not_source (.inr rfl)
      | create last new ran dirs => exact completes_of_not_source (.inr rfl)
      | visit kind disk dirs =>
        apply completes_of_not_source
        rcases kind with ⟨_, _, rfl⟩ | ⟨_, _, rfl⟩ <;> exact .inr rfl
      | idle picks same why =>
        exact completes_of_not_source (.inl (idle_empty hh.toBooks why hdir))
  · intro hc hash dir hdir
    cases (h.change hh.toBooks).came hh.toBooks hdir with
    | stay mem same =>
      rw [same]
      exact hr _ _ mem
    | made new ran => trivial
    | @moved o p ch n pick dir chosen mem ran =>
      rw [moved_contents hh.toBooks chosen mem ran]
      have hcomp := hc o 1 p ch.source rfl pick (by rw [dir]; exact mem)
      rw [dir, hh.data_eq] at hcomp
      rw [hh.data_eq] at chosen
      exact (moved_iff hq hof chosen (hh.all _ _ mem)).mpr hcomp

section
variable {s₀ : State} {tr : List (State × Act × State)}

/-- The hashes call a tree patched, or patched and compiled, rightly all along a run iff every step
of the run completes the tree that it moves. -/
theorem patched_iff (hq : q.Normal) (he : EmptyDir env t) (hs : Start env q t s₀)
    (hr : Run (Step env N) s₀ tr s) :
    (RightTrees env q s₀ ∧ ∀ e ∈ tr, RightTrees env q e.2.2) ↔
      ∀ e ∈ tr, Completes env q e.1 e.2.1 := by
  have hof := hs.of he hq
  have hkeeps := kind_keeps (hof.sound hq)
  have h₀ : RightTrees env q s₀ := by
    intro hash dir hdir
    rw [hs.dirs] at hdir
    cases hdir
  rw [and_iff_right h₀]
  exact hr.forall_iff (I := Holds env N s₀.data (Kind s₀.data)) (P := RightTrees env q)
    (C := fun u a _ => Completes env q u a) (fun u a u' hu hst => hu.step hkeeps hst)
    (fun u a u' hu hp hst => rightTrees_step hq hof hu hp hst.effect.1) (hs.holds he) h₀

end

theorem sample_prefixFree : sampleData.PrefixFree := by
  have hall : ∀ x ∈ [['a'], ['o'], ['x']], ∀ y ∈ [['a'], ['o'], ['x']], ¬ x ++ ['/'] <+: y := by
    decide
  intro x hx y hy
  exact hall x (sample_name hx) y (sample_name hy)

/-- After a patch and a compile the tree lacks `o`, which is the same in both compiled states. -/
theorem patched_incomplete : ∃ s₀ tr s, EmptyDir sampleEnv sampleDisk ∧ sampleData.Normal ∧
    sampleData.PrefixFree ∧ Start sampleEnv sampleData sampleDisk s₀ ∧
    Run (Step sampleEnv 1) s₀ tr s ∧ ¬ RightTrees sampleEnv sampleData s := by
  obtain ⟨s₀, tr, s, hs, hr, hc⟩ := sample_run 1
    [.initial ⟨0, 0, 1⟩, .op (.patch ⟨0, kernelName 0⟩ 0 ⟨0, 0, 1⟩) 1,
      .op (.compile ⟨0, kernelName 0⟩ ⟨0, 0, 1⟩) 1]
    (fun s => decide (kernelName 0 ∈ s.dirs .patchedCompiled ∧
      contents sampleEnv s.disk (kernelName 0) (pathOf ['o']) = none)) (by decide +kernel)
  obtain ⟨hdir, hnone⟩ := of_decide_eq_true hc
  refine ⟨s₀, tr, s, sample_empty, fun x hx => sample_normal hx, sample_prefixFree, hs, hr, ?_⟩
  intro hright
  have hlist : sampleData.compiled.lookup ['o'] = some (Size.ofNat 3) := by decide +kernel
  have hhas := hright _ _ hdir ['o'] (Size.ofNat 3) hlist
  rw [hnone] at hhas
  cases hhas

/-- a run that patches a tree -/
theorem patched_iff_patch : ∃ s₀ tr s, Start sampleEnv sampleData sampleDisk s₀ ∧
    Run (Step sampleEnv 1) s₀ tr s ∧ kernelName 0 ∈ s.dirs .patched ∧
    ((RightTrees sampleEnv sampleData s₀ ∧ ∀ e ∈ tr, RightTrees sampleEnv sampleData e.2.2) ↔
      ∀ e ∈ tr, Completes sampleEnv sampleData e.1 e.2.1) := by
  obtain ⟨s₀, tr, s, hs, hr, hc⟩ := sample_run 1
    [.initial ⟨0, 0, 1⟩, .op (.patch ⟨0, kernelName 0⟩ 0 ⟨0, 0, 1⟩) 1]
    (fun s => decide (kernelName 0 ∈ s.dirs .patched)) (by decide +kernel)
  exact ⟨s₀, tr, s, hs, hr, of_decide_eq_true hc,
    patched_iff (fun x hx => sample_normal hx) sample_empty hs hr⟩

/-! ## what is written -/

/-- The calls of `run_directory` that a step makes. -/
inductive Call (s : State) : Act → Entries → Str → Prop
  | initial {clock} : Call s (.initial clock) s.data.unpatched (kernelName s.initial)
  | create {draws clock ret n} (last : draws.getLast? = some n) :
    Call s (.op (.create draws clock) ret) s.data.unpatched (kernelName n)
  | patch {p draw clock ch} (chosen : (goodMoves s (patchOp s.data))[p.index]? = some ch) :
    Call s (.op (.patch p draw clock) 1) ch.dataset p.dir
  | compile {p clock ch} (chosen : (goodMoves s (compileOp s.data))[p.index]? = some ch) :
    Call s (.op (.compile p clock) 1) ch.dataset p.dir

/-- Every file of the dataset has its size after the call. -/
def Wrote (env : Env) (s : State) (a : Act) (s' : State) : Prop :=
  ∀ dataset dir, Call s a dataset dir →
    ∀ e ∈ dataset, contents env s'.disk dir (pathOf e.1) = some e.2.int

/-- A patched tree is compiled in which a file of the compiled dataset is not empty. -/
def Appends (env : Env) (s : State) (a : Act) : Prop :=
  ∃ p clock ret, a = .op (.compile p clock) ret ∧ p.dir ∈ s.dirs .patched ∧
    ∃ e ∈ s.data.compiled, (contents env s.disk p.dir (pathOf e.1)).getD 0 ≠ 0

theorem moves_normal (hd : data.Sound) {o : Op} {ch : Move} (h : ch ∈ o.moves data) :
    NormalEntries ch.dataset := by
  cases o with
  | patch p draw clock =>
    rcases List.mem_pair.mp h with rfl | rfl
    · exact hd.patched
    · exact hd.compiled
  | compile p clock =>
    rcases List.mem_pair.mp h with rfl | rfl
    · exact hd.unpatched.right
    · exact hd.compiled
  | clean p clock =>
    rcases List.mem_pair.mp h with rfl | rfl
    · exact hd.compiled
    · exact hd.unpatched.right
  | delete p clock => cases h
  | create draws clock => cases h
  | read p clock => cases h
  | stat p clock => cases h

theorem written_size {l : Entries} (hn : NormalEntries l) {fresh : Bool} {e : Str × Size}
    (he : e ∈ l) : written fresh [] l f (pathOf e.1) = some e.2.int ↔
      fresh = true ∨ (f (pathOf e.1)).getD 0 = 0 := by
  rw [written_at (x := e.1) hn he, Option.some.injEq]
  unfold newSize
  cases fresh <;> simp

/-- In an unpatched tree there are no files of the compiled dataset yet. -/
theorem compile_fresh (hd : data.Sound) (h : Shows data.unpatched f) {e : Str × Size}
    (he : e ∈ data.unpatchedCompiled) : f (pathOf e.1) = none := by
  cases hf : f (pathOf e.1) with
  | none => rfl
  | some k =>
    obtain ⟨e', he', hpath, _⟩ := (h _ k).mp hf
    exact absurd hpath (hd.unpatched.disjoint he' he)

theorem wrote_made (hd : data.Sound) (hh : Holds env N data (Kind data) s) {n : ℕ}
    (new : s.disk.get (dirOf env (kernelDir n)) = none ∨ (s.initial < N ∧ n = s.initial))
    (ran : Ran env (kernelDir n) s.data.unpatched false s.disk s'.disk) :
    ∀ e ∈ s.data.unpatched, contents env s'.disk (kernelName n) (pathOf e.1) = some e.2.int := by
  intro e he
  rw [hh.data_eq] at he
  rw [contents_made hh.toFresh new ran, hh.data_eq]
  exact (written_size hd.unpatched.left he).mpr (.inr rfl)

/-- Only a compile appends. -/
theorem not_appends (h : ∀ p clock ret, a ≠ .op (.compile p clock) ret) : ¬ Appends env s a := by
  intro hex
  obtain ⟨p, clock, ret, ha, _⟩ := hex
  exact h p clock ret ha

/-- A step without a call of `run_directory` has nothing to write. -/
theorem wrote_of_no_call (h : ∀ dataset dir, ¬ Call s a dataset dir) : Wrote env s a s' :=
  fun dataset dir hcall => absurd hcall (h dataset dir)

section
variable (hd : data.Sound) (hh : Holds env N data (Kind data) s)
include hd hh

theorem wrote_patch {p : Pick} {draw : ℕ} {clock : Clock} {ch : Move}
    (chosen : (goodMoves s (patchOp s.data))[p.index]? = some ch)
    (hwork : contents env s'.disk p.dir
      = written true [] ch.dataset (contents env s.disk p.dir)) :
    Wrote env s (.op (.patch p draw clock) 1) s' := by
  have hch : ch ∈ (Op.patch p draw clock).moves data := by
    rw [← hh.data_eq]
    exact chosen_mem chosen
  rintro dataset dir (_ | _ | @⟨_, _, _, ch', chosen'⟩)
  rw [Option.some.inj (chosen'.symm.trans chosen)]
  intro e he
  rw [hwork]
  exact (written_size (moves_normal hd hch) he).mpr (.inl rfl)

theorem wrote_compile {p : Pick} {clock : Clock} {ch : Move}
    (chosen : (goodMoves s (compileOp s.data))[p.index]? = some ch)
    (mem : p.dir ∈ s.dirs ch.source)
    (hwork : contents env s'.disk p.dir
      = written false [] ch.dataset (contents env s.disk p.dir)) :
    Wrote env s (.op (.compile p clock) 1) s' ↔ ¬ Appends env s (.op (.compile p clock) 1) := by
  have hch := chosen_mem chosen
  have hnorm : NormalEntries ch.dataset := by
    apply moves_normal hd (o := .compile p clock)
    rw [← hh.data_eq]
    exact hch
  -- the sizes are right iff nothing was there to append to
  have hwrote : Wrote env s (.op (.compile p clock) 1) s' ↔
      ∀ e ∈ ch.dataset, (contents env s.disk p.dir (pathOf e.1)).getD 0 = 0 := by
    refine ⟨?_, ?_⟩
    · intro hw e he
      have hsize := hw ch.dataset p.dir (.compile chosen) e he
      rw [hwork] at hsize
      simpa using (written_size hnorm he).mp hsize
    · rintro hzero dataset dir (_ | _ | _ | @⟨_, _, ch', chosen'⟩)
      rw [Option.some.inj (chosen'.symm.trans chosen)]
      intro e he
      rw [hwork]
      exact (written_size hnorm he).mpr (.inr (hzero e he))
  rw [hwrote]
  rcases List.mem_pair.mp hch with rfl | rfl
  · -- an unpatched tree has none of the files
    have hkind := hh.all _ _ mem
    rw [hh.data_eq]
    refine iff_of_true ?_ ?_
    · intro e he
      rw [compile_fresh hd hkind he]
      rfl
    · intro h
      obtain ⟨p', clock', ret, ha, hdir, _⟩ := h
      cases ha
      cases hh.unique _ _ _ hdir mem
  · refine ⟨?_, ?_⟩
    · intro hzero hex
      obtain ⟨p', clock', ret, ha, _, e, he, hne⟩ := hex
      cases ha
      exact hne (hzero e he)
    · intro hno e he
      by_contra hne
      exact hno ⟨p, clock, 1, rfl, mem, e, he, hne⟩

theorem wrote_step (h : Effect env N s s' a) : Wrote env s a s' ↔ ¬ Appends env s a := by
  cases h with
  | initial lt ran dirs next =>
    refine iff_of_true ?_ (not_appends fun _ _ _ => Act.noConfusion)
    rintro dataset dir ⟨⟩
    exact wrote_made hd hh (.inr ⟨lt, rfl⟩) (hh.ran ran)
  | @op o ret all next done =>
    cases done with
    | @move _ p ch pick chosen mem ran dirs =>
      have hwork := moved_contents hh.toBooks (chosen_mem chosen) mem ran
      cases o with
      | patch p' draw clock =>
        cases pick
        refine iff_of_true (wrote_patch hd hh chosen hwork) (not_appends ?_)
        intro p clock ret ha
        cases ha
      | compile p' clock =>
        cases pick
        exact wrote_compile hd hh chosen mem hwork
      | clean p' clock =>
        refine iff_of_true (wrote_of_no_call ?_) (not_appends ?_)
        · rintro dataset dir ⟨⟩
        · intro p clock ret ha
          cases ha
      | delete p clock => cases chosen_mem chosen
      | create draws clock => cases chosen_mem chosen
      | read p clock => cases chosen_mem chosen
      | stat p clock => cases chosen_mem chosen
    | delete mem ran dirs =>
      refine iff_of_true (wrote_of_no_call ?_) (not_appends ?_)
      · rintro dataset dir ⟨⟩
      · intro p clock ret ha
        cases ha
    | create last new ran dirs =>
      refine iff_of_true ?_ (not_appends ?_)
      · rintro dataset dir (_ | ⟨last'⟩)
        rw [Option.some.inj (last'.symm.trans last)]
        exact wrote_made hd hh (.inl (hh.get_none new)) (hh.ran ran)
      · intro p clock ret ha
        cases ha
    | visit kind disk dirs =>
      refine iff_of_true (wrote_of_no_call ?_) (not_appends ?_)
      · intro dataset dir hcall
        rcases kind with ⟨p, clock, rfl⟩ | ⟨p, clock, rfl⟩ <;> cases hcall
      · intro p clock ret ha
        cases ha
        rcases kind with ⟨_, _, h⟩ | ⟨_, _, h⟩ <;> cases h
    | idle picks same why =>
      refine iff_of_true (wrote_of_no_call ?_) ?_
      · rintro dataset dir ⟨⟩
        exact picks rfl
      · intro hex
        obtain ⟨p', clock', ret, ha, hdir, _⟩ := hex
        cases ha
        exact idle_empty hh.toBooks why hdir (by simp [Op.sources])

end

section
variable {s₀ : State} {tr : List (State × Act × State)}

/-- In every run, a step leaves the listed sizes iff it is not a compile that appends. -/
theorem wrote_iff (hq : q.Normal) (he : EmptyDir env t) (hs : Start env q t s₀)
    (hr : Run (Step env N) s₀ tr s) :
    ∀ e ∈ tr, Wrote env e.1 e.2.1 e.2.2 ↔ ¬ Appends env e.1 e.2.1 := by
  intro e hmem
  have hsound := (hs.of he hq).sound hq
  obtain ⟨hh, hst, _⟩ := hr.steps_inv (I := Holds env N s₀.data (Kind s₀.data))
    (fun u a u' hu hst => hu.step (kind_keeps hsound) hst) (hs.holds he) e hmem
  exact wrote_step hsound hh hst.effect.1

end

/-- The compile of a patched tree appends five bytes to `x`, which has one. -/
theorem wrote_appended : ∃ s₀ tr s, EmptyDir sampleEnv sampleDisk ∧ sampleData.Normal ∧
    sampleData.PrefixFree ∧ Start sampleEnv sampleData sampleDisk s₀ ∧
    Run (Step sampleEnv 1) s₀ tr s ∧ ∃ e ∈ tr, ¬ Wrote sampleEnv e.1 e.2.1 e.2.2 := by
  obtain ⟨s₀, tr, s, hs, hr, hc⟩ := sample_run 1
    [.initial ⟨0, 0, 1⟩, .op (.patch ⟨0, kernelName 0⟩ 0 ⟨0, 0, 1⟩) 1]
    (fun s => match (Act.op (.compile ⟨0, kernelName 0⟩ ⟨0, 0, 1⟩) 1).next sampleEnv 1 s with
      | .error _ => false
      | .ok s' => ((goodMoves s (compileOp s.data))[0]?).any fun ch => ch.dataset.any fun e =>
        decide (contents sampleEnv s'.disk (kernelName 0) (pathOf e.1) ≠ some e.2.int))
    (by decide +kernel)
  split at hc
  · cases hc
  · next s' hnext =>
    obtain ⟨ch, hch, hany⟩ := (Option.any_eq_true _ _).mp hc
    obtain ⟨e, he, hne⟩ := List.any_eq_true.mp hany
    refine ⟨s₀, _, s', sample_empty, fun x hx => sample_normal hx, sample_prefixFree, hs,
      hr.snoc ((Act.next_ok _ _).mp hnext), _, List.mem_append_right _ (List.mem_singleton_self _),
      ?_⟩
    intro hw
    exact of_decide_eq_true hne (hw ch.dataset _ (.compile hch) e he)

/-- a run that compiles a tree which is not patched -/
theorem wrote_iff_compile : ∃ s₀ tr s, Start sampleEnv sampleData sampleDisk s₀ ∧
    Run (Step sampleEnv 1) s₀ tr s ∧ kernelName 0 ∈ s.dirs .unpatchedCompiled ∧
    ∀ e ∈ tr, Wrote sampleEnv e.1 e.2.1 e.2.2 ↔ ¬ Appends sampleEnv e.1 e.2.1 := by
  obtain ⟨s₀, tr, s, hs, hr, hc⟩ := sample_run 1
    [.initial ⟨0, 0, 1⟩, .op (.compile ⟨0, kernelName 0⟩ ⟨0, 0, 1⟩) 1]
    (fun s => decide (kernelName 0 ∈ s.dirs .unpatchedCompiled)) (by decide +kernel)
  exact ⟨s₀, tr, s, hs, hr, of_decide_eq_true hc,
    wrote_iff (fun x hx => sample_normal hx) sample_empty hs hr⟩

end Compilebench
