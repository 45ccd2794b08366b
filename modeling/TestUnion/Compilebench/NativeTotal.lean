import TestUnion.Compilebench.Books
import TestUnion.Compilebench.Ends
import TestUnion.MakedirsSpec

/-!
# compilebench: when `native_order` returns

* `freeNative_total`, `withSizes_total`   a free directory name is found, and every key has a size;
* `Apart`           no name of a list lies above another one;
* `Between`         what the tree of `run_directory` holds between two rounds;
* `runFile_total`, `runLoop_total`   all files of such a list are written;
* `Writable`        the files of a dict can be written with the buffer;
* `native_returns_iff`   `native_order` lists the dict and leaves no trace iff a clock tick passes
                    and the dict is writable.
-/

namespace Compilebench

open FileTree PosixPath PosixCalls ExceptLoop

variable {env : Env} {t u : Disk} {d : Name} {dhash : Dataset} {l : Entries}

/-! ## a free name -/

theorem freeNative_error {fuel i : ℕ} {x : Exn} (h : freeNative env t fuel i = .error x) :
    ∀ j, i ≤ j → j < i + fuel → «exists» t (join env.benchdir (nativeName j)) = true := by
  induction fuel generalizing i with
  | zero => intro j h1 h2; omega
  | succ fuel ih =>
    unfold freeNative at h
    split at h
    · next hx =>
      intro j h1 h2
      by_cases hij : j = i
      · rw [hij]
        exact hx
      · exact ih h j (by omega) (by omega)
    · cases h

theorem freeNative_total (hb : t.get env.base = some .dir) :
    ∃ name, freeNative env t (t.nodes.keys.card + 1) 0 = .ok name := by
  cases h : freeNative env t (t.nodes.keys.card + 1) 0 with
  | ok name => exact ⟨name, rfl⟩
  | error x =>
    exfalso
    have hex := freeNative_error h
    -- more names than nodes
    have hle : (Finset.range (t.nodes.keys.card + 1)).card ≤ t.nodes.keys.card := by
      apply Finset.card_le_card_of_injOn (fun j => dirOf env (nativeDir j))
      · intro j hj
        have hlt := Finset.mem_range.mp hj
        have hne := (exists_join env.plain hb (nativeDir j)).mp (hex j (Nat.zero_le _) (by omega))
        exact Finmap.mem_keys.mpr (Finmap.lookup_isSome.mp (Option.isSome_iff_ne_none.mpr hne))
      · intro j _ k _ hjk
        exact number_injective (congrArg Subtype.val (List.cons.inj hjk).1)
    rw [Finset.card_range] at hle
    omega

theorem collect_total {α : Type} {g : α → Str} {m : List α} (hm : ∀ a ∈ m, g a ∈ dhash) :
    ∃ l, m.foldlM (collect dhash g) [] = .ok l := by
  obtain ⟨l, hl, _⟩ := foldlM_total (f := collect dhash g) (l := m) (s := [])
    (I := fun _ _ => True) trivial fun pre a post s hl _ => by
      have ha : g a ∈ dhash := hm a (by rw [hl]; simp)
      obtain ⟨sz, hsz⟩ := Option.isSome_iff_exists.mp (Finmap.lookup_isSome.mpr ha)
      refine ⟨s ++ [(g a, sz)], ?_, trivial⟩
      unfold collect getItem
      rw [hsz]
      rfl
  exact ⟨l, hl⟩

theorem withSizes_total :
    ∃ l, withSizes dhash (env.sort pathcomp (env.keys dhash)) = .ok l := by
  apply collect_total (g := id)
  intro x hx
  rw [(env.sort_perm _ _).mem_iff] at hx
  exact (env.mem_keys dhash x).mp hx

/-! ## one round -/

def Apart (dataset : Entries) : Prop :=
  ∀ e ∈ dataset, ∀ e' ∈ dataset, pathOf e.1 <:+ pathOf e'.1 → pathOf e.1 = pathOf e'.1

/-- Below `D` there are the files of `pre`, and directories above them. -/
structure Between (D : Path) (pre : Entries) (seen : Finset Str) (u : Disk) : Prop where
  top : u.get D = some .dir
  dirs : ∀ r, r ≠ [] → u.get (r ++ D) = some .dir →
    ∃ e ∈ pre, r <:+ pathOf e.1 ∧ r ≠ pathOf e.1
  files : ∀ r k, u.get (r ++ D) = some (.file k) → ∃ e ∈ pre, r = pathOf e.1
  seen : ∀ y ∈ seen, u.get (pathOf y ++ D) = some .dir

section
variable {D : Path} {pre : Entries} {seen seen' : Finset Str} {x : Str} {sz : Size} {n : Name}
  {r : Path} {u' : Disk} (hu : Between D pre seen u)
include hu

theorem Between.noFile (hapart : Apart (pre ++ [(x, sz)])) (hpath : pathOf x = n :: r) :
    NoFile u D r := by
  intro q hq
  cases hg : u.get (q ++ D) with
  | none => exact .inl rfl
  | some v =>
    cases v with
    | dir => exact .inr rfl
    | file k =>
      -- the file would be an entry above `x`
      obtain ⟨e, he, rfl⟩ := hu.files q k hg
      have heq := hapart e (List.mem_append_left _ he) (x, sz) (by simp)
        (hq.trans (by rw [hpath]; exact List.suffix_cons n r))
      rw [heq, hpath] at hq
      exact absurd hq.length_le (by simp)

/-- The place of the file is not taken by a directory. -/
theorem Between.not_dir (hapart : Apart (pre ++ [(x, sz)])) (hpath : pathOf x = n :: r)
    (hadds : AddsDirs (r ++ D) u u') : u'.get (n :: (r ++ D)) ≠ some .dir := by
  intro hg
  rcases hadds (n :: (r ++ D)) with h | ⟨_, _, h⟩
  · rw [hg] at h
    obtain ⟨e, he, hsuf, hne⟩ := hu.dirs (n :: r) (List.cons_ne_nil n r) h.symm
    rw [← hpath] at hsuf hne
    exact hne (hapart (x, sz) (by simp) e (List.mem_append_left _ he) hsuf)
  · exact absurd h.length_le (by simp)

/-- One more file, after the directories above it were made. -/
theorem Between.write {u3 : Disk} (hpath : pathOf x = n :: r) (hadds : AddsDirs (r ++ D) u u')
    (hnotdir : u'.get (n :: (r ++ D)) ≠ some .dir)
    (hseen : ∀ y ∈ seen', u'.get (pathOf y ++ D) = some .dir)
    (hget : ∃ k, ∀ q, u3.get q = if q = n :: (r ++ D) then some (.file k) else u'.get q) :
    Between D (pre ++ [(x, sz)]) seen' u3 := by
  obtain ⟨k, hget⟩ := hget
  have hoff {q : Path} (hq : q ≠ n :: (r ++ D)) : u3.get q = u'.get q := by
    rw [hget, if_neg hq]
  have hon : u3.get (n :: (r ++ D)) = some (.file k) := by
    rw [hget, if_pos rfl]
  have hpre {e : Str × Size} (he : e ∈ pre) : e ∈ pre ++ [(x, sz)] := List.mem_append_left _ he
  refine ⟨?_, ?_, ?_, ?_⟩
  · rw [hoff fun h => absurd (congrArg List.length h) (by simp; omega)]
    rcases hadds D with h | ⟨h, _⟩
    · rw [h]
      exact hu.top
    · rw [hu.top] at h
      cases h
  · intro r' hr' hg
    by_cases hq : r' ++ D = n :: (r ++ D)
    · rw [hq, hon] at hg
      cases hg
    · rw [hoff hq] at hg
      rcases hadds (r' ++ D) with h | ⟨_, _, h⟩
      · obtain ⟨e, he, hsuf⟩ := hu.dirs r' hr' (h.symm.trans hg)
        exact ⟨e, hpre he, hsuf⟩
      · have hsuf : r' <:+ r := ((List.suffix_append_inj_of_length_eq rfl).mp h).1
        refine ⟨(x, sz), by simp, ?_, ?_⟩
        · rw [hpath]
          exact hsuf.trans (List.suffix_cons n r)
        · rintro rfl
          rw [hpath] at hsuf
          exact absurd hsuf.length_le (by simp)
  · intro r' j hg
    by_cases hq : r' ++ D = n :: (r ++ D)
    · refine ⟨(x, sz), by simp, ?_⟩
      rw [hpath]
      exact List.append_cancel_right hq
    · rw [hoff hq] at hg
      rcases hadds (r' ++ D) with h | ⟨_, h, _⟩
      · obtain ⟨e, he, heq⟩ := hu.files r' j (h.symm.trans hg)
        exact ⟨e, hpre he, heq⟩
      · rw [hg] at h
        cases h
  · intro y hy
    have hyd := hseen y hy
    rw [hoff]
    · exact hyd
    · intro hq
      rw [hq] at hyd
      exact hnotdir hyd

end

theorem noteDirs_suffix (fuel : ℕ) {dname : Str} {seen seen' : Finset Str}
    (h : noteDirs fuel dname seen = .ok seen') :
    ∀ y ∈ seen', y ∈ seen ∨ pathOf y <:+ pathOf dname := by
  induction fuel generalizing dname seen with
  | zero => cases h
  | succ fuel ih =>
    unfold noteDirs at h
    split at h
    · cases h
      exact fun y hy => .inl hy
    · intro y hy
      rcases ih h y hy with hy | hy
      · rcases Finset.mem_insert.mp hy with rfl | hy
        · exact .inr (List.suffix_refl _)
        · exact .inl hy
      · exact .inr (hy.trans (pathOf_dirname dname))

section
variable {D : Path} {pre : Entries} {seen : Finset Str} {x : Str} {sz : Size} {n : Name}
  {r : Path} {curdir : Str} (hplain : Plain curdir) (hlast : curdir.getLast? ≠ some '/')
  (hD : pathOf curdir = D)
include hplain hlast hD

/-- After it the directory of the entry is there. -/
theorem ensureDir_total (htop : u.get D = some .dir)
    (hmarked : ∀ y ∈ seen, u.get (pathOf y ++ D) = some .dir) (hx : Normal x)
    (hpath : pathOf x = n :: r) (hno : NoFile u D r) :
    ∃ seen' u', ensureDir curdir (dirname x) seen u = .ok (seen', u') ∧
      u'.get (r ++ D) = some .dir ∧ AddsDirs (r ++ D) u u' ∧
      ∀ y ∈ seen', u'.get (pathOf y ++ D) = some .dir := by
  unfold ensureDir
  by_cases hc : dirname x ≠ [] ∧ dirname x ∉ seen
  · rw [if_pos hc]
    rcases normal_dirname hx hpath with ⟨_, hnil⟩ | ⟨hdn, hdpath⟩
    · exact absurd hnil hc.1
    · obtain ⟨seen', hseen'⟩ := noteDirs_total ((dirname x).length + 1) hdn.local.relative
        (Nat.lt_succ_self _) seen
      have hadds := makedirs_adds (t := u) (hplain.join hdn.local)
      have hmade : (makedirs (join curdir (dirname x)) u).2.get (pathOf (dirname x) ++ pathOf curdir)
          = some .dir :=
        makedirs_dir hplain hlast (by rw [hD]; exact htop) hdn (by rw [hdpath, hD]; exact hno)
      rw [pathOf_join hdn.local.relative hplain.1, hdpath, hD] at hadds
      rw [hdpath, hD] at hmade
      refine ⟨seen', (makedirs (join curdir (dirname x)) u).2, ?_, hmade, hadds, ?_⟩
      · show (noteDirs ((dirname x).length + 1) (dirname x) seen >>= fun s => .ok (s, _)) = _
        rw [hseen']
        rfl
      · intro y hy
        rcases noteDirs_suffix _ hseen' y hy with hy | hy
        · rcases hadds (pathOf y ++ D) with h | ⟨h, _⟩
          · rw [h]
            exact hmarked y hy
          · rw [hmarked y hy] at h
            cases h
        · rw [hdpath] at hy
          by_cases heq : pathOf y = r
          · rw [heq]
            exact hmade
          · apply Tree.get_of_suffix (q := r ++ D) (by rw [hmade]; exact Option.some_ne_none _)
            · exact (List.suffix_append_inj_of_length_eq rfl).mpr ⟨hy, rfl⟩
            · exact fun h => heq (List.append_cancel_right h)
  · rw [if_neg hc]
    refine ⟨seen, u, rfl, ?_, AddsDirs.refl _ _, hmarked⟩
    rcases normal_dirname hx hpath with ⟨hr, _⟩ | ⟨hdn, hdpath⟩
    · rw [hr]
      exact htop
    · have hmem : dirname x ∈ seen := by
        by_contra hn
        exact hc ⟨hdn.ne_nil, hn⟩
      have h := hmarked _ hmem
      rw [hdpath] at h
      exact h

/-- The file of the entry is written. -/
theorem runFile_total (hu : Between D pre seen u) (hx : Normal x)
    (hapart : Apart (pre ++ [(x, sz)])) (hfine : 1 ≤ env.bufsize ∨ sz.int = 0) :
    ∃ s, runFile env curdir false false (seen, u) (x, sz) = .ok s ∧
      Between D (pre ++ [(x, sz)]) s.1 s.2 := by
  obtain ⟨n, r, hpath⟩ := List.exists_cons_of_ne_nil hx.pathOf_ne_nil
  obtain ⟨seen', u1, hdirs, hdir, hadds, hseen⟩ :=
    ensureDir_total hplain hlast hD hu.top hu.seen hx hpath (hu.noFile hapart hpath)
  have hnotdir := hu.not_dir hapart hpath hadds
  -- the file is opened in its directory
  obtain ⟨hparent, _, hparentPath⟩ := extend_spec hplain hlast r
  rw [hD] at hparentPath
  have hjoin : join curdir x = join (extend curdir r) n.1 := by
    rw [join_normal hplain.1 hlast hx, hpath]
    rfl
  obtain ⟨u2, hopen⟩ := openAppend_join (t := u1) (n := n) hparent
    (by rw [hparentPath]; exact hdir) (by rw [hparentPath]; exact hnotdir)
  rw [hparentPath] at hopen
  -- and written
  obtain ⟨u3, hwrite⟩ : ∃ u3, rewrite env false n (r ++ D) sz u2 = .ok u3 := by
    rw [rewrite_eq, writeLoop_total hfine]
    exact ⟨_, rfl⟩
  refine ⟨(seen', u3), ?_, hu.write hpath hadds hnotdir hseen
    ⟨_, rewritten_get hopen hdir hwrite⟩⟩
  rw [runFile_eq, hdirs]
  show (call (openAppend (join curdir x) u1) >>= _) = _
  rw [hjoin, hopen]
  show (rewrite env false n (r ++ D) sz u2 >>= _) = _
  rw [hwrite]
  rfl

end

/-! ## all files -/

section
variable {dataset : Entries} (hb : t.get env.base = some .dir)
include hb

theorem Between.start (hfree : t.get (dirOf env d) = none) :
    Between (dirOf env d) [] ∅ (mkdirKeep (join env.benchdir d.1) t).2 := by
  have hnone (r : Path) : t.get (r ++ dirOf env d) = none := by
    by_contra hne
    exact Tree.get_ne_none_of_suffix hne (List.suffix_append r _) hfree
  have hget {r : Path} (hr : r ≠ []) :
      (mkdirKeep (join env.benchdir d.1) t).2.get (r ++ dirOf env d) = none := by
    rw [mkdirKeep_curdir hb, if_neg]
    · exact hnone r
    · rintro ⟨h, _⟩
      exact hr (List.append_left_eq_self.mp h)
  have htop : (mkdirKeep (join env.benchdir d.1) t).2.get (dirOf env d) = some .dir := by
    rw [mkdirKeep_curdir hb, if_pos ⟨rfl, hfree⟩]
  refine ⟨htop, ?_, ?_, ?_⟩
  · intro r hr h
    rw [hget hr] at h
    cases h
  · intro r k h
    by_cases hr : r = []
    · rw [hr, List.nil_append, htop] at h
      cases h
    · rw [hget hr] at h
      cases h
  · intro y hy
    exact absurd hy (Finset.notMem_empty y)

theorem runLoop_total (hfree : t.get (dirOf env d) = none) (hn : ∀ e ∈ dataset, Normal e.1)
    (hapart : Apart dataset) (hfine : ∀ e ∈ dataset, 1 ≤ env.bufsize ∨ e.2.int = 0) :
    ∃ s, runLoop env dataset d.1 false false t = .ok s := by
  obtain ⟨s, hs, _⟩ := foldlM_total (l := dataset)
    (f := runFile env (join env.benchdir d.1) false false)
    (s := (∅, (mkdirKeep (join env.benchdir d.1) t).2))
    (I := fun pre s => Between (dirOf env d) pre s.1 s.2)
    (Between.start hb hfree) (by
      rintro pre ⟨x, sz⟩ post ⟨seen, u⟩ hl hu
      have hmem : (x, sz) ∈ dataset := by rw [hl]; simp
      apply runFile_total (plain_curdir env d) (curdir_getLast env d) (pathOf_curdir env d) hu
        (hn _ hmem) _ (hfine _ hmem)
      have hsub {e : Str × Size} (he : e ∈ pre ++ [(x, sz)]) : e ∈ dataset := by
        rw [hl, List.append_cons]
        exact List.mem_append_left _ he
      exact fun e he e' he' => hapart e (hsub he) e' (hsub he'))
  exact ⟨s, hs⟩

end

/-! ## the call -/

section
variable {dataset : Entries} (hb : t.get env.base = some .dir)
include hb

/-- The walk looks up names of the dataset only. -/
theorem nativeWalk_total (hfree : t.get (dirOf env d) = none) (hn : NormalEntries dataset)
    (hin : ∀ e ∈ dataset, e.1 ∈ dhash) {clock : Clock}
    (hu : runDirectory env dataset d.1 false false clock t = .ok u) :
    ∃ l, nativeWalk env dhash (join env.benchdir d.1) u = .ok l := by
  have hran := runDirectory_ran hb hn.local (fun hx => hx) hu
  have hplain := plain_curdir env d
  have hpath := pathOf_curdir env d
  have hud : u.get (pathOf (join env.benchdir d.1)) = some .dir := by
    rw [hpath, hran.top, if_pos hfree]
  rw [nativeWalk_eq hplain hud]
  apply collect_total
  intro r hr
  obtain ⟨hne, k, hfile⟩ := (mem_allFiles (depth u) hud (below_lt_depth u _) r).mp hr
  rw [hpath] at hfile
  -- a file that no entry wrote was there before
  obtain ⟨e, he, heq⟩ : ∃ e ∈ dataset, r ++ dirOf env d = pathOf e.1 ++ dirOf env d := by
    by_contra hnot
    have hsize := Tree.size_eq_some.mpr hfile
    rw [hran.size, written_of_not_mem fun e he heq => hnot ⟨e, he, heq⟩] at hsize
    have hold : t.get (r ++ dirOf env d) ≠ none := by
      rw [Tree.size_eq_some.mp hsize]
      exact Option.some_ne_none _
    exact Tree.get_ne_none_of_suffix hold (List.suffix_append r _) hfree
  obtain ⟨hnorm, hname⟩ := foundName_eq hplain.1 (curdir_getLast env d) hne
  have hfound : foundName (join env.benchdir d.1) r = e.1 :=
    hnorm.eq_of_pathOf (hn.normal e he) (hname.trans (List.append_cancel_right heq))
  rw [hfound]
  exact hin e he

end

/-- No listed file is a directory prefix of another. -/
def PrefixFree (dhash : Dataset) : Prop := ∀ x ∈ dhash, ∀ y ∈ dhash, ¬ x ++ ['/'] <+: y

/-- The files of the dict can be written. -/
def Writable (env : Env) (dhash : Dataset) : Prop :=
  1 ≤ env.bufsize ∨ ∀ x sz, dhash.lookup x = some sz → sz.int = 0

theorem Lists.apart (hl : Lists l dhash) (hn : ∀ x ∈ dhash, Normal x) (hp : PrefixFree dhash) :
    Apart l := by
  have hin {e : Str × Size} (he : e ∈ l) : e.1 ∈ dhash :=
    Finmap.mem_of_lookup_eq_some (hl.agrees e he)
  intro e he e' he' hsuf
  by_contra hne
  exact hp _ (hin he) _ (hin he') (prefix_of_suffix (hn _ (hin he)) (hn _ (hin he')) hsuf hne)

theorem Writable.fine (h : Writable env dhash) (hl : Lists l dhash) :
    ∀ e ∈ l, 1 ≤ env.bufsize ∨ e.2.int = 0 := by
  intro e he
  rcases h with h | h
  · exact .inl h
  · exact .inr (h e.1 e.2 (hl.agrees e he))

section
variable (hb : t.get env.base = some .dir) (hn : ∀ x ∈ dhash, Normal x)
include hb hn

theorem nativeOrder_total (hp : PrefixFree dhash) {clock : Clock} (hc : clock.real ≠ 0)
    (hw : Writable env dhash) : ∃ l t', nativeOrder env dhash clock t = .ok (l, t') := by
  obtain ⟨name, hname⟩ := freeNative_total hb
  obtain ⟨j, rfl, hfree⟩ := freeNative_ok hname
  have hnone := get_of_free hb hfree
  obtain ⟨tmplist, htmp⟩ : ∃ l, withSizes dhash (env.sort pathcomp (env.keys dhash)) = .ok l :=
    withSizes_total
  have htl := sorted_lists htmp
  have hin {e : Str × Size} (he : e ∈ tmplist) : e.1 ∈ dhash :=
    Finmap.mem_of_lookup_eq_some (htl.agrees e he)
  have hnorm : NormalEntries tmplist := ⟨fun e he => hn e.1 (hin he), htl.nodup⟩
  obtain ⟨⟨seen, u⟩, hloop⟩ := runLoop_total hb hnone hnorm.normal (htl.apart hn hp) (hw.fine htl)
  have hu : runDirectory env tmplist (nativeDir j).1 false false clock t = .ok u := by
    rw [runDirectory_of_loop hloop, if_neg hc]
  obtain ⟨l, hl⟩ : ∃ l, nativeWalk env dhash (join env.benchdir (nativeDir j).1) u = .ok l :=
    nativeWalk_total hb hnone hnorm (fun e he => hin he) hu
  have hran := runDirectory_ran hb hnorm.local (fun hx => hx) hu
  obtain ⟨v, t', hv, ht', _⟩ := remove_total (d := nativeDir j) (t := u) (by
    rw [hran.top, if_pos hnone])
  refine ⟨l, t', ?_⟩
  unfold nativeOrder
  simp only [bind_eq_ok]
  exact ⟨_, hname, tmplist, htmp, u, hu, l, hl, v, hv, t', call_ok.mpr ht', rfl⟩

end

/-- A write loop that does not end is not passed. -/
theorem writable_of_loop {dataset : Entries} {s : Finset Str × Disk}
    (h : runLoop env dataset d.1 false false t = .ok s) :
    ∀ e ∈ dataset, 1 ≤ env.bufsize ∨ e.2.int = 0 := by
  have hall := foldlM_inv (I := fun pre _ => ∀ e ∈ pre, 1 ≤ env.bufsize ∨ e.2.int = 0)
    (fun e he => absurd he (List.not_mem_nil)) (by
      rintro pre ⟨x, sz⟩ post ⟨seen, u⟩ s' - hpre hstep e he
      rcases List.mem_append.mp he with he | he
      · exact hpre e he
      · rw [List.mem_singleton.mp he]
        rw [runFile_eq] at hstep
        simp only [bind_eq_ok, rewrite_eq] at hstep
        obtain ⟨_, _, _, _, _, ⟨size, hsize, _⟩, _⟩ := hstep
        by_contra hnot
        obtain ⟨hbuf, hsz⟩ := not_or.mp hnot
        have hpos : 0 < sz.int := Nat.pos_of_ne_zero hsz
        rw [writeLoop_endless (by omega) _ _ (by omega)] at hsize
        cases hsize) h
  exact hall

/-- `native_order` returns a list of the dict, with the tree as it was, iff a clock tick passes in
`run_directory` and the files can be written. -/
theorem native_returns_iff (hb : t.get env.base = some .dir) (hn : ∀ x ∈ dhash, Normal x)
    (hp : PrefixFree dhash) (clock : Clock) :
    (∃ l, nativeOrder env dhash clock t = .ok (l, t) ∧ Lists l dhash) ↔
      clock.real ≠ 0 ∧ Writable env dhash := by
  refine ⟨?_, ?_⟩
  · rintro ⟨l, h, _⟩
    obtain ⟨j, tmplist, u, v, _, htmp, hu, _⟩ := nativeOrder_ok h
    obtain ⟨hc, seen, hloop⟩ := runDirectory_ok hu
    refine ⟨hc, ?_⟩
    by_cases hbuf : 1 ≤ env.bufsize
    · exact .inl hbuf
    · refine .inr fun x sz hx => ?_
      have hmem := ((sorted_lists htmp).mem x sz).mpr hx
      exact (writable_of_loop (d := nativeDir j) hloop _ hmem).resolve_left hbuf
  · rintro ⟨hc, hw⟩
    obtain ⟨l, t', h⟩ := nativeOrder_total hb hn hp hc hw
    have hlists := nativeOrder_lists hb hn h
    obtain ⟨rfl, _⟩ := nativeOrder_disk hb (fun x hx => (hn x hx).local) h
    exact ⟨l, h, hlists⟩

/-! ## two calls -/

theorem sample_apart : PrefixFree (dict sampleLines.2.2.1) := by
  have hall : ∀ x ∈ [['a'], ['o'], ['x']], ∀ y ∈ [['a'], ['o'], ['x']], ¬ x ++ ['/'] <+: y := by
    decide
  intro x hx y hy
  exact hall x (sample_name (.inr (.inr (.inl hx)))) y (sample_name (.inr (.inr (.inl hy))))

theorem native_returns_three :
    ∃ l, nativeOrder sampleEnv (dict sampleLines.2.2.1) ⟨0, 0, 1⟩ sampleDisk = .ok (l, sampleDisk) ∧
      Lists l (dict sampleLines.2.2.1) :=
  (native_returns_iff sample_empty.dir (fun _ hx => sample_normal (.inr (.inr (.inl hx))))
    sample_apart ⟨0, 0, 1⟩).mpr ⟨by decide, .inl (by decide)⟩

/-- An empty dict is written in no time. -/
theorem not_native_returns : ¬ ∀ (dhash : Dataset) (clock : Clock) (t : Disk),
    t.get sampleEnv.base = some .dir → (∀ x ∈ dhash, Normal x) → PrefixFree dhash →
    ∃ l, nativeOrder sampleEnv dhash clock t = .ok (l, t) ∧ Lists l dhash := by
  intro hall
  have hnone : ∀ x, x ∉ (∅ : Dataset) := fun x => Finmap.notMem_empty
  obtain ⟨l, h, _⟩ := hall ∅ ⟨0, 0, 0⟩ sampleDisk sample_empty.dir
    (fun x hx => absurd hx (hnone x)) (fun x hx => absurd hx (hnone x))
  obtain ⟨_, _, _, _, _, _, hu, _⟩ := nativeOrder_ok h
  exact (runDirectory_ok hu).1 rfl

end Compilebench
