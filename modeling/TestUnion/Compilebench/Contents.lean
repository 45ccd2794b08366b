import TestUnion.Compilebench.Books

/-!
# compilebench: the files of the trees

* `Op.change`       what an operation does to the files of the directory it moves;
* `Keeps`, `Holds`, `Holds.step`   a property of the files of a directory for each hash, which the
                    creation of a directory and every move keep, holds in every state of a run;
* `Shows l f`       the files `f` are exactly the listed ones;
* `unpatched_exact`   the trees that are not patched hold exactly what the datasets list;
* `clean_finds`     `clean_directory` finds every file it unlinks.
-/

namespace Compilebench

open FileTree PosixPath PosixCalls ExceptLoop Lts

variable {env : Env} {N : ℕ} {s s' : State} {t t' : Disk} {d : Name} {a : Act}

/-! ## a property of the files for each hash -/

def Op.change : Op → Entries → (Path → Option ℕ) → Path → Option ℕ
  | .patch _ _ _ => written true []
  | .compile _ _ => written false []
  | .clean _ _ => removed []
  | _ => fun _ f => f

theorem Ran.contents {dataset : Entries} {fresh : Bool} (h : Ran env d dataset fresh t t') :
    contents env t' d.1 = written fresh [] dataset (contents env t d.1) := by
  unfold Compilebench.contents
  rw [h.size, pathOf_curdir]
  exact written_shift _ _ _ _

theorem work_contents (hb : t.get env.base = some .dir) {dataset : Entries}
    (hin : ∀ e ∈ dataset, Local e.1) {o : Op} (h : o.work env dataset d.1 t = .ok t') :
    contents env t' d.1 = o.change dataset (contents env t d.1) := by
  rcases work_ok h with ⟨p, draw, clock, rfl, h'⟩ | ⟨p, clock, rfl, h'⟩ | ⟨p, clock, rfl, h'⟩
  · exact (runDirectory_ran hb hin (fun _ => rfl) h').contents
  · exact (runDirectory_ran hb hin (fun hx => hx) h').contents
  · unfold contents
    rw [cleanLoop_size hin (cleanDirectory_ok.mp h').1, pathOf_curdir]
    exact removed_shift _ _ _

theorem moved_contents (hb : Books env N s) {o : Op} {ch : Move} (hch : ch ∈ o.moves s.data)
    {dir : Str} (hdir : dir ∈ s.dirs ch.source)
    (h : o.work env ch.dataset dir s.disk = .ok t') :
    contents env t' dir = o.change ch.dataset (contents env s.disk dir) := by
  obtain ⟨n, rfl, _⟩ := hb.named _ _ hdir
  exact work_contents (d := kernelDir n) hb.base (moves_inside hb.inside hch) h

/-- A directory that is created was not there before. -/
theorem contents_made (hf : Fresh env N s) {n : ℕ}
    (new : s.disk.get (dirOf env (kernelDir n)) = none ∨ (s.initial < N ∧ n = s.initial))
    (ran : Ran env (kernelDir n) s.data.unpatched false s.disk s'.disk) :
    contents env s'.disk (kernelName n) = written false [] s.data.unpatched fun _ => none := by
  have hbefore : contents env s.disk (kernelDir n).1 = fun _ => none := by
    funext p
    unfold contents Tree.size
    rw [pathOf_curdir]
    cases hg : s.disk.get (p ++ dirOf env (kernelDir n)) with
    | none => rfl
    | some x =>
      have hne : s.disk.get (p ++ dirOf env (kernelDir n)) ≠ none := by
        rw [hg]
        exact Option.some_ne_none _
      exact absurd (hf.get_new new) (Tree.get_ne_none_of_suffix hne (List.suffix_append _ _))
  have hran := ran.contents
  rw [hbefore] at hran
  exact hran

structure Keeps (data : Data) (K : Hash → (Path → Option ℕ) → Prop) : Prop where
  made : K .unpatched (written false [] data.unpatched fun _ => none)
  moved : ∀ (o : Op) (ch : Move) f, ch ∈ o.moves data → K ch.source f → K ch.dest (o.change ch.dataset f)

structure Holds (env : Env) (N : ℕ) (data : Data) (K : Hash → (Path → Option ℕ) → Prop)
    (s : State) : Prop extends Fresh env N s where
  data_eq : s.data = data
  all : ∀ hash, ∀ x ∈ s.dirs hash, K hash (contents env s.disk x)

variable {data : Data} {K : Hash → (Path → Option ℕ) → Prop}

theorem Holds.step (hk : Keeps data K) (hh : Holds env N data K s) (h : Step env N s a s') :
    Holds env N data K s' := by
  obtain ⟨heff, hdata⟩ := h.effect
  refine ⟨hh.toFresh.step h, by rw [hdata, hh.data_eq], ?_⟩
  intro hash x hx
  cases (heff.change hh.toBooks).came hh.toBooks hx with
  | stay mem same =>
    rw [same]
    exact hh.all _ _ mem
  | made new ran =>
    rw [contents_made hh.toFresh new ran, hh.data_eq]
    exact hk.made
  | @moved o p ch n pick dir chosen mem ran =>
    rw [moved_contents hh.toBooks chosen mem ran]
    rw [hh.data_eq] at chosen
    exact hk.moved o ch _ chosen (hh.all _ _ mem)

theorem Start.holds {q : Quadruple} (he : EmptyDir env t) (h : Start env q t s) :
    Holds env N s.data K s := by
  refine ⟨h.fresh he, rfl, ?_⟩
  intro hash x hx
  rw [h.dirs] at hx
  cases hx

/-! ## exactly the listed files -/

def Shows (l : Entries) (f : Path → Option ℕ) : Prop :=
  ∀ p k, f p = some k ↔ ∃ e ∈ l, pathOf e.1 = p ∧ e.2.int = k

variable {l l' : Entries} {f : Path → Option ℕ}

theorem shows_nil : Shows [] fun _ => none := by
  intro p k
  simp

/-- Entries with the same path are the same. -/
theorem NormalEntries.unique (hn : NormalEntries l) {e e' : Str × Size} (he : e ∈ l) (he' : e' ∈ l)
    (h : pathOf e.1 = pathOf e'.1) : e = e' :=
  List.inj_on_of_nodup_map hn.nodup he he' ((hn.normal e he).eq_of_pathOf (hn.normal e' he') h)

theorem NormalEntries.left (hn : NormalEntries (l ++ l')) : NormalEntries l := by
  refine ⟨fun e he => hn.normal e (List.mem_append_left _ he), ?_⟩
  have := hn.nodup
  rw [List.map_append] at this
  exact (List.nodup_append.mp this).1

theorem NormalEntries.right (hn : NormalEntries (l ++ l')) : NormalEntries l' := by
  refine ⟨fun e he => hn.normal e (List.mem_append_right _ he), ?_⟩
  have := hn.nodup
  rw [List.map_append] at this
  exact (List.nodup_append.mp this).2.1

theorem NormalEntries.disjoint (hn : NormalEntries (l ++ l')) {e e' : Str × Size} (he : e ∈ l)
    (he' : e' ∈ l') : pathOf e.1 ≠ pathOf e'.1 := by
  intro h
  have heq := hn.unique (List.mem_append_left _ he) (List.mem_append_right _ he') h
  have := hn.nodup
  rw [List.map_append] at this
  exact List.disjoint_of_nodup_append this (List.mem_map_of_mem he)
    (heq ▸ List.mem_map_of_mem he')

theorem written_shows (hn : NormalEntries (l ++ l')) (h : Shows l f) :
    Shows (l ++ l') (written false [] l' f) := by
  intro p k
  by_cases hp : ∃ e ∈ l', pathOf e.1 = p
  · obtain ⟨e, he, rfl⟩ := hp
    have hnone : f (pathOf e.1) = none := by
      cases hf : f (pathOf e.1) with
      | none => rfl
      | some j =>
        obtain ⟨e', he', hpath, _⟩ := (h _ j).mp hf
        exact absurd hpath (hn.disjoint he' he)
    rw [written_at (x := e.1) hn.right he, hnone]
    refine ⟨?_, ?_⟩
    · intro hk
      refine ⟨e, List.mem_append_right _ he, rfl, ?_⟩
      rw [← Option.some.inj hk]
      exact (Nat.zero_add _).symm
    · intro hex
      obtain ⟨e', he', hpath, rfl⟩ := hex
      rw [hn.unique he' (List.mem_append_right _ he) hpath]
      exact congrArg some (Nat.zero_add _)
  · rw [written_of_not_mem, h p k]
    · refine ⟨?_, ?_⟩
      · intro hall
        obtain ⟨e, he, hpath⟩ := hall
        exact ⟨e, List.mem_append_left _ he, hpath⟩
      · intro hboth
        obtain ⟨e, he, hpath⟩ := hboth
        rcases List.mem_append.mp he with he | he
        · exact ⟨e, he, hpath⟩
        · exact absurd ⟨e, he, hpath.1⟩ hp
    · intro e he heq
      rw [List.append_nil] at heq
      exact hp ⟨e, he, heq.symm⟩

theorem removed_shows (hn : NormalEntries (l ++ l')) (h : Shows (l ++ l') f) :
    Shows l (removed [] l' f) := by
  intro p k
  rw [removed_apply]
  by_cases hp : ∃ e ∈ l', p = pathOf e.1 ++ []
  · rw [if_pos hp]
    obtain ⟨e, he, rfl⟩ := hp
    refine ⟨?_, ?_⟩
    · intro hk
      cases hk
    · intro hex
      obtain ⟨e', he', hpath, _⟩ := hex
      rw [List.append_nil] at hpath
      exact absurd hpath (hn.disjoint he' he)
  · rw [if_neg hp, h p k]
    refine ⟨?_, ?_⟩
    · intro hall
      obtain ⟨e, he, hpath⟩ := hall
      rcases List.mem_append.mp he with he | he
      · exact ⟨e, he, hpath⟩
      · rw [← hpath.1] at hp
        exact absurd ⟨e, he, (List.append_nil _).symm⟩ hp
    · intro hboth
      obtain ⟨e, he, hpath⟩ := hboth
      exact ⟨e, List.mem_append_left _ he, hpath⟩

/-! ## the trees that are not patched -/

/-- What the files of a directory are, as far as its hash says it and the program keeps it. -/
def Kind (data : Data) : Hash → (Path → Option ℕ) → Prop
  | .unpatched, f => Shows data.unpatched f
  | .unpatchedCompiled, f => Shows (data.unpatched ++ data.unpatchedCompiled) f
  | .patchedCompiled, f => ∀ e ∈ data.compiled, f (pathOf e.1) ≠ none
  | .patched, _ => True

/-- what the reduced datasets are like -/
structure Data.Sound (data : Data) : Prop where
  unpatched : NormalEntries (data.unpatched ++ data.unpatchedCompiled)
  patched : NormalEntries data.patched
  compiled : NormalEntries data.compiled

theorem written_present (hn : NormalEntries l) (fresh : Bool) {e : Str × Size} (he : e ∈ l) :
    written fresh [] l f (pathOf e.1) ≠ none := by
  rw [written_at (x := e.1) hn he]
  exact Option.some_ne_none _

theorem kind_keeps (hd : data.Sound) : Keeps data (Kind data) := by
  refine ⟨written_shows (l := []) hd.unpatched.left shows_nil, ?_⟩
  intro o ch f hch hk
  cases o with
  | patch p draw clock =>
    rcases List.mem_pair.mp hch with rfl | rfl
    · trivial
    · exact fun e he => written_present hd.compiled true he
  | compile p clock =>
    rcases List.mem_pair.mp hch with rfl | rfl
    · exact written_shows hd.unpatched hk
    · exact fun e he => written_present hd.compiled false he
  | clean p clock =>
    rcases List.mem_pair.mp hch with rfl | rfl
    · trivial
    · exact removed_shows hd.unpatched hk
  | delete p clock => cases hch
  | create draws clock => cases hch
  | read p clock => cases hch
  | stat p clock => cases hch

theorem Data.Of.sound {q : Quadruple} (hq : q.Normal) (h : data.Of env q) : data.Sound := by
  have key {l : Entries} {e : Dataset} (hl : Lists l e) (hsub : ∀ x ∈ e, Normal x) :
      NormalEntries l :=
    ⟨fun x hx => hsub _ (Finmap.mem_of_lookup_eq_some (hl.agrees x hx)), hl.nodup⟩
  have hu := key h.unpatched fun x hx => hq x (.inl hx)
  have huc := key h.unpatchedCompiled fun x hx => hq x (.inr (.inr (.inl (mem_of_reduced.2.1 hx))))
  refine ⟨⟨?_, ?_⟩, ?_, ?_⟩
  · intro e he
    rcases List.mem_append.mp he with he | he
    · exact hu.normal e he
    · exact huc.normal e he
  · rw [List.map_append]
    refine List.nodup_append.mpr ⟨hu.nodup, huc.nodup, ?_⟩
    intro x hx y hy hxy
    obtain ⟨e, he, rfl⟩ := List.mem_map.mp hx
    obtain ⟨e', he', rfl⟩ := List.mem_map.mp hy
    have hnot := (lookup_reducedUnpatchedCompiled.mp (h.unpatchedCompiled.agrees e' he')).2
    rw [← hxy] at hnot
    exact hnot (Finmap.mem_of_lookup_eq_some (h.unpatched.agrees e he))
  · exact key h.patched fun x hx => hq x (.inr (.inl (mem_of_reduced.1 hx)))
  · exact key h.compiled fun x hx => hq x (.inr (.inr (.inr (mem_of_reduced.2.2 hx))))

section
variable {q : Quadruple} {s₀ : State} {tr : List (State × Act × State)}

theorem Start.of (he : EmptyDir env t) (hq : q.Normal) (hs : Start env q t s₀) :
    s₀.data.Of env q := by
  obtain ⟨clocks, hinit⟩ := hs.init
  exact init_lists he.dir hq hinit

theorem holds_kind (hq : q.Normal) (he : EmptyDir env t) (hs : Start env q t s₀)
    (hr : Run (Step env N) s₀ tr s) : Holds env N s₀.data (Kind s₀.data) s :=
  hr.inv (fun _ _ _ hu hst => hu.step (kind_keeps ((hs.of he hq).sound hq)) hst) (hs.holds he)

/-- The trees that are not patched hold exactly the files of the datasets: the compiled ones also
those of the compiled dataset that the other one does not name. -/
theorem unpatched_exact (hq : q.Normal) (he : EmptyDir env t) (hs : Start env q t s₀)
    (hr : Run (Step env N) s₀ tr s) :
    (∀ dir ∈ s.dirs .unpatched, ∀ p k, contents env s.disk dir p = some k ↔
      ∃ x sz, q.unpatched.lookup x = some sz ∧ pathOf x = p ∧ sz.int = k) ∧
    ∀ dir ∈ s.dirs .unpatchedCompiled, ∀ p k, contents env s.disk dir p = some k ↔
      ∃ x sz, (q.unpatched.lookup x = some sz ∨
        (x ∉ q.unpatched ∧ q.unpatchedCompiled.lookup x = some sz)) ∧ pathOf x = p ∧ sz.int = k := by
  have hof := hs.of he hq
  have hh := holds_kind hq he hs hr
  refine ⟨?_, ?_⟩
  · intro dir hdir p k
    have hk : Shows s₀.data.unpatched (contents env s.disk dir) := hh.all _ dir hdir
    rw [hk p k]
    refine ⟨?_, ?_⟩
    · intro h
      obtain ⟨⟨x, sz⟩, hmem, hpath⟩ := h
      exact ⟨x, sz, (hof.unpatched.mem x sz).mp hmem, hpath⟩
    · intro hex
      obtain ⟨x, sz, hx, hpath⟩ := hex
      exact ⟨(x, sz), (hof.unpatched.mem x sz).mpr hx, hpath⟩
  · intro dir hdir p k
    have hk : Shows (s₀.data.unpatched ++ s₀.data.unpatchedCompiled) (contents env s.disk dir) :=
      hh.all _ dir hdir
    have hmem (x : Str) (sz : Size) : (x, sz) ∈ s₀.data.unpatched ++ s₀.data.unpatchedCompiled ↔
        q.unpatched.lookup x = some sz ∨
          (x ∉ q.unpatched ∧ q.unpatchedCompiled.lookup x = some sz) := by
      rw [List.mem_append, hof.unpatched.mem, hof.unpatchedCompiled.mem,
        lookup_reducedUnpatchedCompiled, and_comm]
    rw [hk p k]
    refine ⟨?_, ?_⟩
    · intro hall
      obtain ⟨⟨x, sz⟩, hx, hpath⟩ := hall
      exact ⟨x, sz, (hmem x sz).mp hx, hpath⟩
    · intro hboth
      obtain ⟨x, sz, hx, hpath⟩ := hboth
      exact ⟨(x, sz), (hmem x sz).mpr hx, hpath⟩

end

/-- one tree that is not compiled, and one that is -/
theorem unpatched_exact_two : ∃ s₀ tr s, Start sampleEnv sampleData sampleDisk s₀ ∧
    Run (Step sampleEnv 2) s₀ tr s ∧
    (kernelName 1 ∈ s.dirs .unpatched ∧ kernelName 0 ∈ s.dirs .unpatchedCompiled) ∧
    (∀ dir ∈ s.dirs .unpatched, ∀ p k, contents sampleEnv s.disk dir p = some k ↔
      ∃ x sz, sampleData.unpatched.lookup x = some sz ∧ pathOf x = p ∧ sz.int = k) ∧
    ∀ dir ∈ s.dirs .unpatchedCompiled, ∀ p k, contents sampleEnv s.disk dir p = some k ↔
      ∃ x sz, (sampleData.unpatched.lookup x = some sz ∨
        (x ∉ sampleData.unpatched ∧ sampleData.unpatchedCompiled.lookup x = some sz)) ∧
        pathOf x = p ∧ sz.int = k := by
  obtain ⟨s₀, tr, s, hs, hr, hc⟩ := sample_run 2
    [.initial ⟨0, 0, 1⟩, .initial ⟨0, 0, 1⟩, .op (.compile ⟨0, kernelName 0⟩ ⟨0, 0, 1⟩) 1]
    (fun s => decide (kernelName 1 ∈ s.dirs .unpatched ∧
      kernelName 0 ∈ s.dirs .unpatchedCompiled)) (by decide +kernel)
  exact ⟨s₀, tr, s, hs, hr, of_decide_eq_true hc,
    unpatched_exact (fun x hx => sample_normal hx) sample_empty hs hr⟩

/-! ## cleaning -/

theorem unlink_normal {x : Str} {k : ℕ} (hx : Normal x)
    (h : t.size (pathOf x ++ dirOf env d) = some k) :
    ∃ t', unlink (join (join env.benchdir d.1) x) t = .ok t' := by
  have hplain := plain_curdir env d
  obtain ⟨ns, _, hns⟩ := hx.components_eq
  have hne : ns ≠ [] := by
    rintro rfl
    exact components_ne_nil x hns
  have hlast : components x = ns.dropLast.map .down ++ [.down (ns.getLast hne)] := by
    rw [hns]
    conv_lhs => rw [← List.dropLast_concat_getLast hne]
    rw [List.map_append, List.map_singleton]
  have hcs : ∃ cs, components (join (join env.benchdir d.1) x) = cs ++ [.down (ns.getLast hne)] := by
    rcases join_slash hx.local.relative hplain.1 with hj | ⟨c, _, hj⟩
    · refine ⟨components (join env.benchdir d.1) ++ ns.dropLast.map .down, ?_⟩
      rw [hj, components_slash, hlast, List.append_assoc]
    · refine ⟨components c ++ ns.dropLast.map .down, ?_⟩
      rw [hj, components_slash, hlast, List.append_assoc]
  obtain ⟨cs, hcs⟩ := hcs
  apply unlink_file (hplain.join hx.local) hcs
  rw [pathOf_join hx.local.relative hplain.1, pathOf_curdir]
  exact Tree.size_eq_some.mp h

theorem cleanLoop_total (hn : NormalEntries l)
    (h : ∀ e ∈ l, t.size (pathOf e.1 ++ dirOf env d) ≠ none) :
    ∃ t', cleanLoop env l d.1 t = .ok t' := by
  induction l generalizing t with
  | nil => exact ⟨t, rfl⟩
  | cons e l ih =>
    have he := hn.normal e (List.mem_cons_self ..)
    obtain ⟨k, hk⟩ := Option.ne_none_iff_exists'.mp (h e (List.mem_cons_self ..))
    obtain ⟨u, hu⟩ := unlink_normal he hk
    have hget := (unlink_ok ((plain_curdir env d).join he.local) hu).2
    rw [pathOf_join he.local.relative (plain_curdir env d).1, pathOf_curdir] at hget
    obtain ⟨t', ht'⟩ := ih hn.tail (t := u) (by
      intro e' he'
      have hsame : u.size (pathOf e'.1 ++ dirOf env d) = t.size (pathOf e'.1 ++ dirOf env d) :=
        Tree.size_congr (by rw [hget, if_neg (hn.head_ne he' _).symm])
      rw [hsame]
      exact h e' (List.mem_cons_of_mem _ he'))
    refine ⟨t', ?_⟩
    show (call (unlink (join (join env.benchdir d.1) e.1) t) >>= cleanLoop env l d.1) = _
    rw [hu]
    exact ht'

/-- Before an entry is unlinked its file is there, when all files of the list were. -/
theorem cleanLoop_next {pre post : Entries} {e : Str × Size} (hn : NormalEntries (pre ++ e :: post))
    (h : ∀ x ∈ pre ++ e :: post, t.size (pathOf x.1 ++ dirOf env d) ≠ none) :
    ∃ t', cleanLoop env pre d.1 t = .ok t' ∧ ∃ k, t'.size (pathOf e.1 ++ dirOf env d) = some k := by
  have hpre : NormalEntries pre := hn.left
  obtain ⟨t', ht'⟩ := cleanLoop_total hpre fun x hx => h x (List.mem_append_left _ hx)
  refine ⟨t', ht', ?_⟩
  have he : e ∈ e :: post := List.mem_cons_self ..
  rw [cleanLoop_size hpre.local ht', removed_apply, if_neg]
  · exact Option.ne_none_iff_exists'.mp (h e (List.mem_append_right _ he))
  · intro hex
    obtain ⟨x, hx, heq⟩ := hex
    exact hn.disjoint hx he (List.append_cancel_right heq).symm

/-- An operation that moves a directory fails with the error of its work, or because of its draw. -/
theorem moveOneDir_error {op : List Move} {work : Entries → Str → Disk → Except Exn Disk}
    {counter : Stat} {p : Pick} {clock : Clock} {x : Exn}
    (h : moveOneDir op work counter p clock s = .error x) :
    x = .noDraw ∨ ∃ ch ∈ op, p.dir ∈ s.dirs ch.source ∧ work ch.dataset p.dir s.disk = .error x := by
  unfold moveOneDir at h
  simp only at h
  split at h
  · cases h
  · rw [bind_eq_error] at h
    rcases h with h | ⟨⟨ch, dir⟩, hpick, h⟩
    · exact .inl (pick_error h)
    · obtain ⟨hch, hmem, rfl⟩ := pick_ok.mp hpick
      simp only at h
      split at h
      · cases h
      · rw [bind_eq_error] at h
        rcases h with hwork | ⟨t, _, h⟩
        · exact .inr ⟨ch, chosen_mem hch, hmem, hwork⟩
        · cases h

/-- The files of a dataset that a directory can be cleaned of are in it. -/
theorem clean_files (hd : data.Sound) (hh : Holds env N data (Kind data) s) {ch : Move}
    (hch : ch ∈ cleanOp data) {dir : Str} (hdir : dir ∈ s.dirs ch.source) :
    NormalEntries ch.dataset ∧ ∀ e ∈ ch.dataset, contents env s.disk dir (pathOf e.1) ≠ none := by
  have hk := hh.all _ dir hdir
  rcases List.mem_pair.mp hch with rfl | rfl
  · exact ⟨hd.compiled, hk⟩
  · refine ⟨hd.unpatched.right, ?_⟩
    intro e he
    have hsome := (hk (pathOf e.1) e.2.int).mpr ⟨e, List.mem_append_right _ he, rfl, rfl⟩
    rw [hsome]
    exact Option.some_ne_none _

section
variable {q : Quadruple} {s₀ : State} {tr : List (State × Act × State)}

/-- Every file that `clean_directory` unlinks is there: after the unlinks before it the next one
succeeds, so `clean_one_dir` fails only when nothing can be drawn or no time has passed. -/
theorem clean_finds (hq : q.Normal) (he : EmptyDir env t) (hs : Start env q t s₀)
    (hr : Run (Step env N) s₀ tr s) :
    (∀ ch ∈ cleanOp s.data, ∀ dir ∈ s.dirs ch.source, ∀ pre e post,
      ch.dataset = pre ++ e :: post → ∃ t', cleanLoop env pre dir s.disk = .ok t' ∧
        (∃ k, t'.size (pathOf (join (join env.benchdir dir) e.1)) = some k) ∧
        ∃ t'', unlink (join (join env.benchdir dir) e.1) t' = .ok t'') ∧
    ∀ p clock x, cleanOneDir env p clock s = .error x → x = .noDraw ∨ clock.real = 0 := by
  have hsound := (hs.of he hq).sound hq
  have hh := holds_kind hq he hs hr
  have hfiles (ch : Move) (hch : ch ∈ cleanOp s.data) (dir : Str) (hdir : dir ∈ s.dirs ch.source) :
      ∃ n, dir = kernelName n ∧ NormalEntries ch.dataset ∧
        ∀ e ∈ ch.dataset, s.disk.size (pathOf e.1 ++ dirOf env (kernelDir n)) ≠ none := by
    rw [hh.data_eq] at hch
    obtain ⟨n, rfl, _⟩ := hh.named _ _ hdir
    obtain ⟨hnorm, hall⟩ := clean_files hsound hh hch hdir
    refine ⟨n, rfl, hnorm, ?_⟩
    rw [← pathOf_curdir]
    exact hall
  refine ⟨?_, ?_⟩
  · intro ch hch dir hdir pre e post hl
    obtain ⟨n, rfl, hnorm, hall⟩ := hfiles ch hch dir hdir
    rw [hl] at hnorm hall
    have hen : Normal e.1 := hnorm.normal e (List.mem_append_right _ (List.mem_cons_self ..))
    obtain ⟨t', ht', k, hk⟩ := cleanLoop_next (d := kernelDir n) hnorm hall
    refine ⟨t', ht', ⟨k, ?_⟩, unlink_normal (d := kernelDir n) hen hk⟩
    have hplain := plain_curdir env (kernelDir n)
    rw [show join env.benchdir (kernelName n) = join env.benchdir (kernelDir n).1 from rfl,
      pathOf_join hen.local.relative hplain.1, pathOf_curdir]
    exact hk
  · intro p clock x hx
    rw [cleanOneDir_eq] at hx
    rcases moveOneDir_error hx with hdraw | ⟨ch, hch, hmem, hwork⟩
    · exact .inl hdraw
    · obtain ⟨n, hn, hnorm, hall⟩ := hfiles ch hch p.dir hmem
      rw [hn] at hwork
      obtain ⟨t', ht'⟩ := cleanLoop_total (d := kernelDir n) hnorm hall
      by_contra hne
      have hok : cleanDirectory env ch.dataset (kernelName n) clock s.disk = .ok t' :=
        cleanDirectory_ok.mpr ⟨ht', fun hc => hne (.inr hc)⟩
      rw [hok] at hwork
      cases hwork

end

/-- a tree that was compiled, cleaned, patched and compiled -/
theorem clean_finds_compiled : ∃ s₀ tr s, Start sampleEnv sampleData sampleDisk s₀ ∧
    Run (Step sampleEnv 1) s₀ tr s ∧ kernelName 0 ∈ s.dirs .patchedCompiled ∧
    (∀ ch ∈ cleanOp s.data, ∀ dir ∈ s.dirs ch.source, ∀ pre e post,
      ch.dataset = pre ++ e :: post → ∃ t', cleanLoop sampleEnv pre dir s.disk = .ok t' ∧
        (∃ k, t'.size (pathOf (join (join sampleEnv.benchdir dir) e.1)) = some k) ∧
        ∃ t'', unlink (join (join sampleEnv.benchdir dir) e.1) t' = .ok t'') ∧
    ∀ p clock x, cleanOneDir sampleEnv p clock s = .error x → x = .noDraw ∨ clock.real = 0 := by
  obtain ⟨s₀, tr, s, hs, hr, hc⟩ := sample_run 1
    [.initial ⟨0, 0, 1⟩, .op (.compile ⟨0, kernelName 0⟩ ⟨0, 0, 1⟩) 1,
      .op (.clean ⟨0, kernelName 0⟩ ⟨0, 0, 1⟩) 1, .op (.patch ⟨0, kernelName 0⟩ 1 ⟨0, 0, 1⟩) 1,
      .op (.compile ⟨0, kernelName 0⟩ ⟨0, 0, 1⟩) 1]
    (fun s => decide (kernelName 0 ∈ s.dirs .patchedCompiled)) (by decide +kernel)
  exact ⟨s₀, tr, s, hs, hr, of_decide_eq_true hc,
    clean_finds (fun x hx => sample_normal hx) sample_empty hs hr⟩

end Compilebench
