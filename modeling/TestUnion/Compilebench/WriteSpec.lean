import TestUnion.Compilebench.RemoveSpec

/-!
# compilebench: `run_directory`

* `written`         what writing a dataset makes of the sizes of the files, entry after entry;
* `Ran`             what a call of `run_directory` that returned has done to the tree;
* `runDirectory_ran`   every such call has done it;
* `written_of_mem`, `written_of_not_mem`   the sizes after the call, for normal names;
* `removed`, `cleanLoop_size`   the same for `clean_directory`.
-/

namespace Compilebench

open FileTree PosixPath PosixCalls ExceptLoop

variable {env : Env} {t t' : Disk} {d : Name} {curdir : Str}

/-! ## loops on an open file -/

theorem writeLoop_eq {bufsize : ℤ} (hbuf : 1 ≤ bufsize) (fuel sz size : ℕ) (h : sz ≤ fuel) :
    writeLoop bufsize fuel sz size = .ok (size + sz) := by
  induction fuel generalizing sz size with
  | zero =>
    rw [Nat.le_zero.mp h]
    rfl
  | succ fuel ih =>
    unfold writeLoop
    by_cases hpos : (sz : ℤ) > 0
    · rw [if_pos hpos]
      by_cases hle : bufsize ≤ sz
      · have hcur : min (sz : ℤ) bufsize = bufsize := min_eq_right hle
        have hsub : (sz : ℤ) - bufsize = ((sz - bufsize.toNat : ℕ) : ℤ) := by omega
        simp only [hcur, ne_eq, not_true_eq_false, if_false, hsub]
        rw [ih _ _ (by omega)]
        congr 1
        omega
      · have hcur : min (sz : ℤ) bufsize = sz := min_eq_left (by omega)
        have hne : (sz : ℤ) ≠ bufsize := by omega
        have hmin : min ((sz : ℤ).toNat) bufsize.toNat = sz := by omega
        simp only [hcur, if_pos hne, hmin]
        rw [sub_self]
        exact ih 0 (size + sz) (Nat.zero_le _)
    · rw [if_neg hpos]
      have h0 : sz = 0 := by omega
      rw [h0]
      rfl

/-- With a buffer of no bytes a write loop that has something to write does not end. -/
theorem writeLoop_endless {bufsize : ℤ} (hbuf : bufsize ≤ 0) (fuel size : ℕ) {sz : ℤ} (h : 0 < sz) :
    writeLoop bufsize fuel sz size = .error .endless := by
  induction fuel generalizing sz size with
  | zero => exact if_pos h
  | succ fuel ih =>
    have hcur : min sz bufsize = bufsize := min_eq_right (by omega)
    unfold writeLoop
    rw [if_pos h]
    simp only [hcur, ne_eq, not_true_eq_false, if_false]
    exact ih _ (by omega)

theorem writeLoop_ok {bufsize : ℤ} {sz size k : ℕ} (h : writeLoop bufsize sz sz size = .ok k) :
    k = size + sz := by
  by_cases hbuf : 1 ≤ bufsize
  · rw [writeLoop_eq hbuf _ _ _ (Nat.le_refl _)] at h
    cases h
    rfl
  · rcases Nat.eq_zero_or_pos sz with rfl | hpos
    · cases h
      rfl
    · rw [writeLoop_endless (by omega) _ _ (by omega)] at h
      cases h

theorem rewrite_ok {readfirst : Bool} {n : Name} {p : Path} {sz : Size}
    (hp : t.get p = some .dir) (hn : t.get (n :: p) ≠ some .dir)
    (h : rewrite env readfirst n p sz t = .ok t') (q : Path) :
    t'.get q = if q = n :: p
      then some (.file ((if readfirst then 0 else (t.size q).getD 0) + sz.int)) else t.get q := by
  cases readfirst with
  | false =>
    have h' : (writeLoop env.bufsize sz.int sz.int ((t.size (n :: p)).getD 0) >>= fun size =>
      .ok (setSize n p size t)) = .ok t' := h
    rw [bind_eq_ok] at h'
    obtain ⟨size, hsize, h'⟩ := h'
    cases h'
    rw [get_setSize hp hn, writeLoop_ok hsize]
    split
    · next hq => rw [hq]; rfl
    · rfl
  | true =>
    have h' : (readAll env.bufsize ((t.size (n :: p)).getD 0) >>= fun _ =>
      writeLoop env.bufsize sz.int sz.int (((setSize n p 0 t).size (n :: p)).getD 0) >>= fun size =>
        .ok (setSize n p size (setSize n p 0 t))) = .ok t' := h
    rw [bind_eq_ok] at h'
    obtain ⟨k, _, h'⟩ := h'
    rw [bind_eq_ok] at h'
    obtain ⟨size, hsize, h'⟩ := h'
    cases h'
    have hget := get_setSize hp hn 0
    have hp' : (setSize n p 0 t).get p = some .dir := by
      rw [hget, if_neg (List.cons_ne_self n p).symm]
      exact hp
    have hn' : (setSize n p 0 t).get (n :: p) = some (.file 0) := by
      rw [hget, if_pos rfl]
    rw [get_setSize hp' (by rw [hn']; simp), writeLoop_ok hsize, Tree.size_eq_some.mpr hn', hget]
    split
    · rfl
    · rfl

/-! ## one file -/

theorem ensureDir_ok {dname : Str} {seen seen' : Finset Str} (hcur : Plain curdir)
    (hD : t.get (pathOf curdir) ≠ none) (hx : Local dname)
    (h : ensureDir curdir dname seen t = .ok (seen', t')) :
    Within (pathOf curdir) t t' ∧ t'.size = t.size := by
  unfold ensureDir at h
  split at h
  · simp only [bind_eq_ok] at h
    obtain ⟨s, _, h⟩ := h
    cases h
    have hadds := makedirs_adds (t := t) (hcur.join hx)
    rw [pathOf_join hx.relative hcur.1] at hadds
    exact ⟨hadds.within (List.suffix_append _ _) hD, funext hadds.size⟩
  · cases h
    exact ⟨Within.refl _ _, rfl⟩

theorem unlinkQuiet_within {x : Str} (hcur : Plain curdir) (hx : Local x) :
    Within (pathOf curdir) t (unlinkQuiet (join curdir x) t) := by
  unfold unlinkQuiet
  split
  · next u hu => exact unlink_local hcur hx hu
  · exact Within.refl _ _

theorem unlinkQuiet_size {x : Str} (hcur : Plain curdir) (hx : Local x) {q : Path}
    (hq : q ≠ pathOf x ++ pathOf curdir) :
    (unlinkQuiet (join curdir x) t).size q = t.size q := by
  unfold unlinkQuiet
  split
  · next u hu =>
    apply Tree.size_congr
    rw [(unlink_ok (hcur.join hx) hu).2 q, pathOf_join hx.relative hcur.1, if_neg hq]
  · rfl

theorem size_of_get {p : Path} {k : ℕ}
    (h : ∀ q, t'.get q = if q = p then some (.file k) else t.get q) :
    t'.size = Function.update t.size p (some k) := by
  funext q
  by_cases hq : q = p
  · subst hq
    rw [Function.update_self]
    exact Tree.size_eq_some.mpr (by rw [h, if_pos rfl])
  · rw [Function.update_of_ne hq]
    exact Tree.size_congr (by rw [h, if_neg hq])

/-- the size an entry gets -/
def newSize (fresh : Bool) (old : Option ℕ) (sz : Size) : ℕ :=
  (if fresh then 0 else old.getD 0) + sz.int

/-- a file that is opened and rewritten -/
theorem rewritten_get {t₁ : Disk} {s : Str} {readfirst : Bool} {n : Name} {p : Path} {sz : Size}
    (hopen : openAppend s t = .ok ((n, p), t₁)) (hp : t.get p = some .dir)
    (h : rewrite env readfirst n p sz t₁ = .ok t') (q : Path) : t'.get q = if q = n :: p
      then some (.file (newSize readfirst (t.size (n :: p)) sz)) else t.get q := by
  have hget := (openAppend_ok hopen).2.2 hp
  have hdir : t₁.get p = some .dir := by
    rw [hget, if_neg (List.cons_ne_self n p).symm]
    exact hp
  have hfile : t₁.get (n :: p) = some (.file ((t.size (n :: p)).getD 0)) := by
    rw [hget, if_pos rfl]
  rw [rewrite_ok hdir (by rw [hfile]; simp) h q]
  split
  · next hq =>
    rw [hq, Tree.size_eq_some.mpr hfile]
    rfl
  · next hq => rw [hget, if_neg hq]

theorem runFile_ok (hcur : Plain curdir)
    (hD : t.get (pathOf curdir) ≠ none) {unlinkFirst readfirst : Bool}
    (hur : unlinkFirst = true → readfirst = true) {seen seen' : Finset Str} {e : Str × Size}
    (hx : Local e.1)
    (h : runFile env curdir unlinkFirst readfirst (seen, t) e = .ok (seen', t')) :
    Within (pathOf curdir) t t' ∧
      t'.size = Function.update t.size (pathOf e.1 ++ pathOf curdir)
        (some (newSize readfirst (t.size (pathOf e.1 ++ pathOf curdir)) e.2)) := by
  obtain ⟨x, sz⟩ := e
  unfold runFile at h
  simp only [bind_eq_ok] at h
  obtain ⟨⟨seen1, t1⟩, h1, ⟨⟨n, p⟩, t3⟩, h3, t4, h4, h5⟩ := h
  cases h5
  obtain ⟨hw1, hs1⟩ := ensureDir_ok hcur hD hx.dirname h1
  -- `t2` is the tree before the file is opened
  obtain ⟨t2, ht2⟩ : ∃ t2, t2 = if unlinkFirst then unlinkQuiet (join curdir x) t1 else t1 := ⟨_, rfl⟩
  rw [← ht2] at h3
  have hw2 : Within (pathOf curdir) t1 t2 := by
    rw [ht2]
    split
    · exact unlinkQuiet_within hcur hx
    · exact Within.refl _ _
  rw [call_ok] at h3
  have htarget := (openAppend_ok h3).1
  obtain ⟨hpath, hsuf, hp⟩ := target_local hcur hx htarget
  have hget := rewritten_get h3 hp h4
  refine ⟨(hw1.trans hw2).trans ?_, ?_⟩
  · intro q hq
    rw [hget q, if_neg]
    rintro rfl
    exact hq (Below.of_suffix hsuf below_cons)
  · rw [size_of_get hget, ← hpath]
    cases unlinkFirst with
    | false =>
      have h21 : t2 = t1 := ht2
      rw [h21, hs1]
    | true =>
      have hr := hur rfl
      subst hr
      funext q
      by_cases hq : q = n :: p
      · subst hq
        rw [Function.update_self, Function.update_self]
        rfl
      · have h21 : t2 = unlinkQuiet (join curdir x) t1 := ht2
        have hs2 := unlinkQuiet_size (t := t1) hcur hx (q := q) (by rw [← hpath]; exact hq)
        rw [Function.update_of_ne hq, Function.update_of_ne hq, h21, hs2, hs1]

/-! ## the whole directory -/

/-- the sizes after the entries are written into the directory `D` -/
def written (fresh : Bool) (D : Path) (dataset : Entries) (f : Path → Option ℕ) :
    Path → Option ℕ :=
  dataset.foldl (fun f e =>
    Function.update f (pathOf e.1 ++ D) (some (newSize fresh (f (pathOf e.1 ++ D)) e.2))) f

theorem written_cons (fresh : Bool) (D : Path) (e : Str × Size) (dataset : Entries)
    (f : Path → Option ℕ) :
    written fresh D (e :: dataset) f = written fresh D dataset (Function.update f (pathOf e.1 ++ D)
      (some (newSize fresh (f (pathOf e.1 ++ D)) e.2))) := rfl

theorem written_concat (fresh : Bool) (D : Path) (e : Str × Size) (dataset : Entries)
    (f : Path → Option ℕ) :
    written fresh D (dataset ++ [e]) f
      = Function.update (written fresh D dataset f) (pathOf e.1 ++ D)
        (some (newSize fresh (written fresh D dataset f (pathOf e.1 ++ D)) e.2)) := by
  unfold written
  rw [List.foldl_append]
  rfl

structure Ran (env : Env) (d : Name) (dataset : Entries) (fresh : Bool) (t t' : Disk) : Prop where
  top : t'.get (dirOf env d) = if t.get (dirOf env d) = none then some .dir else t.get (dirOf env d)
  other : ∀ q, ¬ Below (dirOf env d) q → q ≠ dirOf env d → t'.get q = t.get q
  size : t'.size = written fresh (dirOf env d) dataset t.size

theorem mkdirKeep_curdir (hb : t.get env.base = some .dir) (q : Path) :
    (mkdirKeep (join env.benchdir d.1) t).2.get q
      = if q = dirOf env d ∧ t.get q = none then some .dir else t.get q := by
  unfold mkdirKeep
  by_cases hn : t.get (dirOf env d) = none
  · obtain ⟨u, hu⟩ := mkdir_join env.plain hb hn
    rw [hu]
    have hget := (mkdir_ok (plain_curdir env d) hu).2 q
    rw [pathOf_curdir] at hget
    show u.get q = _
    rw [hget]
    by_cases hq : q = dirOf env d
    · rw [if_pos hq, if_pos ⟨hq, by rw [hq]; exact hn⟩]
    · rw [if_neg hq, if_neg fun h => hq h.1]
  · rw [mkdir_exists env.plain hb hn]
    show t.get q = _
    rw [if_neg]
    intro hex
    obtain ⟨rfl, h⟩ := hex
    exact hn h

theorem runDirectory_ok {dataset : Entries} {unlinkFirst readfirst : Bool} {clock : Clock}
    (h : runDirectory env dataset d.1 unlinkFirst readfirst clock t = .ok t') :
    clock.real ≠ 0 ∧ ∃ seen, dataset.foldlM
      (runFile env (join env.benchdir d.1) unlinkFirst readfirst)
      (∅, (mkdirKeep (join env.benchdir d.1) t).2) = .ok (seen, t') := by
  unfold runDirectory at h
  simp only [bind_eq_ok] at h
  obtain ⟨⟨seen, u⟩, hu, h⟩ := h
  split at h
  · cases h
  · next hc =>
    cases h
    exact ⟨hc, seen, hu⟩

theorem runDirectory_ran (hb : t.get env.base = some .dir)
    {dataset : Entries} (hin : ∀ e ∈ dataset, Local e.1) {unlinkFirst readfirst : Bool}
    (hur : unlinkFirst = true → readfirst = true) {clock : Clock}
    (h : runDirectory env dataset d.1 unlinkFirst readfirst clock t = .ok t') :
    Ran env d dataset readfirst t t' := by
  obtain ⟨_, seen, hfold⟩ := runDirectory_ok h
  obtain ⟨u, hu⟩ : ∃ u, u = (mkdirKeep (join env.benchdir d.1) t).2 := ⟨_, rfl⟩
  rw [← hu] at hfold
  have hget (q : Path) : u.get q
      = if q = dirOf env d ∧ t.get q = none then some .dir else t.get q := by
    rw [hu]
    exact mkdirKeep_curdir hb q
  have hsize : u.size = t.size := by
    funext q
    by_cases hq : q = dirOf env d ∧ t.get q = none
    · unfold Tree.size
      rw [hget q, if_pos hq, hq.2]
    · exact Tree.size_congr (by rw [hget q, if_neg hq])
  have hD : u.get (dirOf env d) ≠ none := by
    rw [hget]
    split
    · exact Option.some_ne_none _
    · next hne => exact fun h => hne ⟨rfl, h⟩
  -- the tree after the first entries
  have hloop := foldlM_inv (I := fun pre (s : Finset Str × Disk) =>
      Within (dirOf env d) u s.2 ∧ s.2.size = written readfirst (dirOf env d) pre u.size)
    ⟨Within.refl _ _, rfl⟩ (by
      rintro pre e post ⟨seen, v⟩ ⟨seen', v'⟩ hl ⟨hw, hs⟩ hstep
      have hDv : v.get (dirOf env d) ≠ none := by
        rw [hw _ not_below_self]
        exact hD
      rw [← pathOf_curdir] at hDv
      obtain ⟨hw', hs'⟩ := runFile_ok (plain_curdir env d) hDv hur
        (hin e (by rw [hl]; simp)) hstep
      rw [pathOf_curdir] at hw' hs'
      refine ⟨hw.trans hw', ?_⟩
      show v'.size = _
      rw [hs', hs, written_concat]) hfold
  obtain ⟨hw, hs⟩ := hloop
  refine ⟨?_, ?_, ?_⟩
  · rw [hw _ not_below_self, hget]
    by_cases hn : t.get (dirOf env d) = none
    · rw [if_pos ⟨rfl, hn⟩, if_pos hn]
    · rw [if_neg fun h => hn h.2, if_neg hn]
  · intro q hq hne
    rw [hw q hq, hget, if_neg fun h => hne h.1]
  · show t'.size = _
    rw [hs, hsize]

/-! ## normal names -/

structure NormalEntries (dataset : Entries) : Prop where
  normal : ∀ e ∈ dataset, Normal e.1
  nodup : (dataset.map Prod.fst).Nodup

theorem NormalEntries.tail {e : Str × Size} {dataset : Entries}
    (h : NormalEntries (e :: dataset)) : NormalEntries dataset :=
  ⟨fun x hx => h.normal x (List.mem_cons_of_mem _ hx), (List.nodup_cons.mp h.nodup).2⟩

theorem NormalEntries.local {dataset : Entries} (h : NormalEntries dataset) :
    ∀ e ∈ dataset, Local e.1 := fun e he => (h.normal e he).local

/-- the first entry is not named again -/
theorem NormalEntries.head_ne {e e' : Str × Size} {dataset : Entries}
    (h : NormalEntries (e :: dataset)) (he : e' ∈ dataset) (D : Path) :
    pathOf e.1 ++ D ≠ pathOf e'.1 ++ D := by
  intro heq
  have hx : e.1 = e'.1 := (h.normal e (List.mem_cons_self ..)).eq_of_pathOf
    (h.normal e' (List.mem_cons_of_mem _ he)) (List.append_cancel_right heq)
  have hnot := (List.nodup_cons.mp h.nodup).1
  rw [hx] at hnot
  exact hnot (List.mem_map_of_mem he)

theorem written_of_not_mem {fresh : Bool} {D : Path} {dataset : Entries} {f : Path → Option ℕ}
    {q : Path} (h : ∀ e ∈ dataset, q ≠ pathOf e.1 ++ D) : written fresh D dataset f q = f q := by
  induction dataset generalizing f with
  | nil => rfl
  | cons e dataset ih =>
    rw [written_cons, ih fun e' he => h e' (List.mem_cons_of_mem _ he)]
    exact Function.update_of_ne (h e (List.mem_cons_self ..)) _ _

theorem written_of_mem {fresh : Bool} {D : Path} {dataset : Entries} {f : Path → Option ℕ}
    (hn : NormalEntries dataset) {x : Str} {sz : Size} (h : (x, sz) ∈ dataset) :
    written fresh D dataset f (pathOf x ++ D) = some (newSize fresh (f (pathOf x ++ D)) sz) := by
  induction dataset generalizing f with
  | nil => cases h
  | cons e dataset ih =>
    rw [written_cons]
    rcases List.mem_cons.mp h with rfl | h
    · rw [written_of_not_mem fun e' he => hn.head_ne he D, Function.update_self]
    · rw [ih hn.tail h, Function.update_of_ne (hn.head_ne h D).symm]

/-! ## cleaning -/

/-- the sizes after the entries are unlinked -/
def removed (D : Path) (dataset : Entries) (f : Path → Option ℕ) : Path → Option ℕ :=
  dataset.foldl (fun f e => Function.update f (pathOf e.1 ++ D) none) f

theorem removed_cons (D : Path) (e : Str × Size) (dataset : Entries) (f : Path → Option ℕ) :
    removed D (e :: dataset) f = removed D dataset (Function.update f (pathOf e.1 ++ D) none) := rfl

theorem removed_concat (D : Path) (e : Str × Size) (dataset : Entries) (f : Path → Option ℕ) :
    removed D (dataset ++ [e]) f = Function.update (removed D dataset f) (pathOf e.1 ++ D) none := by
  unfold removed
  rw [List.foldl_append]
  rfl

theorem removed_apply {D : Path} {dataset : Entries} {f : Path → Option ℕ} {q : Path} :
    removed D dataset f q = if ∃ e ∈ dataset, q = pathOf e.1 ++ D then none else f q := by
  induction dataset generalizing f with
  | nil => simp [removed]
  | cons e dataset ih =>
    rw [removed_cons, ih]
    by_cases hd : ∃ e' ∈ dataset, q = pathOf e'.1 ++ D
    · obtain ⟨e', he', hq⟩ := hd
      rw [if_pos ⟨e', he', hq⟩, if_pos ⟨e', List.mem_cons_of_mem _ he', hq⟩]
    · rw [if_neg hd]
      by_cases hq : q = pathOf e.1 ++ D
      · rw [if_pos ⟨e, List.mem_cons_self .., hq⟩, hq, Function.update_self]
      · rw [if_neg, Function.update_of_ne hq]
        intro h
        obtain ⟨e', he', hq'⟩ := h
        rcases List.mem_cons.mp he' with rfl | he'
        · exact hq hq'
        · exact hd ⟨e', he', hq'⟩

theorem cleanLoop_size {dataset : Entries} (hin : ∀ e ∈ dataset, Local e.1)
    (h : cleanLoop env dataset d.1 t = .ok t') :
    t'.size = removed (dirOf env d) dataset t.size := by
  apply foldlM_inv (I := fun pre (u : Disk) => u.size = removed (dirOf env d) pre t.size) rfl _ h
  intro pre e post u u' hl hu hstep
  have hx := hin e (by rw [hl]; simp)
  have hget := (unlink_ok ((plain_curdir env d).join hx) (call_ok.mp hstep)).2
  rw [pathOf_join hx.relative (plain_curdir env d).1, pathOf_curdir] at hget
  rw [removed_concat, ← hu]
  funext q
  by_cases hq : q = pathOf e.1 ++ dirOf env d
  · subst hq
    rw [Function.update_self]
    unfold Tree.size
    rw [hget, if_pos rfl]
  · rw [Function.update_of_ne hq]
    exact Tree.size_congr (by rw [hget, if_neg hq])

/-! ## seen from inside the directory -/

theorem update_shift {D p : Path} {f : Path → Option ℕ} {v : Option ℕ} :
    (fun r => Function.update f (p ++ D) v (r ++ D)) = Function.update (fun r => f (r ++ D)) p v := by
  funext r
  by_cases hr : r = p
  · rw [hr, Function.update_self, Function.update_self]
  · have hne : r ++ D ≠ p ++ D := fun h => hr (List.append_cancel_right h)
    rw [Function.update_of_ne hr, Function.update_of_ne hne]

theorem written_shift (fresh : Bool) (D : Path) (dataset : Entries) (f : Path → Option ℕ) :
    (fun r => written fresh D dataset f (r ++ D))
      = written fresh [] dataset fun r => f (r ++ D) := by
  induction dataset generalizing f with
  | nil => rfl
  | cons e dataset ih => rw [written_cons, written_cons, ih, update_shift, List.append_nil]

theorem removed_shift (D : Path) (dataset : Entries) (f : Path → Option ℕ) :
    (fun r => removed D dataset f (r ++ D)) = removed [] dataset fun r => f (r ++ D) := by
  induction dataset generalizing f with
  | nil => rfl
  | cons e dataset ih => rw [removed_cons, removed_cons, ih, update_shift, List.append_nil]

section
variable {dataset : Entries} {fresh : Bool} {f : Path → Option ℕ} {x : Str} {sz : Size}

theorem written_at (hn : NormalEntries dataset) (h : (x, sz) ∈ dataset) :
    written fresh [] dataset f (pathOf x) = some (newSize fresh (f (pathOf x)) sz) := by
  have hw := @written_of_mem fresh [] dataset f hn x sz h
  rw [List.append_nil] at hw
  exact hw

/-- A name that the entries do not have has a path that they do not have. -/
theorem NormalEntries.ne_pathOf (hn : NormalEntries dataset) (hx : Normal x)
    (h : ∀ sz, (x, sz) ∉ dataset) : ∀ e ∈ dataset, pathOf x ≠ pathOf e.1 ++ [] := by
  intro e he heq
  rw [List.append_nil] at heq
  rw [hx.eq_of_pathOf (hn.normal e he) heq] at h
  exact h e.2 he

theorem written_other (hn : NormalEntries dataset) (hx : Normal x) (h : ∀ sz, (x, sz) ∉ dataset) :
    written fresh [] dataset f (pathOf x) = f (pathOf x) :=
  written_of_not_mem (hn.ne_pathOf hx h)

theorem removed_other (hn : NormalEntries dataset) (hx : Normal x) (h : ∀ sz, (x, sz) ∉ dataset) :
    removed [] dataset f (pathOf x) = f (pathOf x) := by
  rw [removed_apply, if_neg]
  intro hex
  obtain ⟨e, he, heq⟩ := hex
  exact hn.ne_pathOf hx h e he heq

end

end Compilebench
