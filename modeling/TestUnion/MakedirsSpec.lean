import TestUnion.WalkSpec

/-!
# When `makedirs` and `open` succeed

* `dirname_slash`, `basename_slash`   the two parts of a string that ends in a name;
* `join_normal`     a normal string is appended name by name;
* `normal_dirname`  its directory name is normal, or empty;
* `prefix_of_suffix`    a path that lies above another one, as strings;
* `makedirs_dir`    `makedirs` makes its directory when no file is in the way;
* `openAppend_join` a file can be opened in an existing directory.
-/

namespace PosixPath

variable {a b s : Str}

theorem rtakeWhile_slash (a : Str) (n : Name) :
    (a ++ '/' :: n.1).rtakeWhile (· ≠ '/') = n.1 := by
  have key : ∀ l : Str, '/' ∉ l → (a ++ '/' :: l).rtakeWhile (· ≠ '/') = l := by
    intro l
    induction l using List.reverseRecOn with
    | nil =>
      intro _
      exact List.rtakeWhile_concat_neg _ _ _ (by simp)
    | append_singleton l c ih =>
      intro hl
      rw [List.mem_append, List.mem_singleton, not_or] at hl
      have happ : a ++ '/' :: (l ++ [c]) = (a ++ '/' :: l) ++ [c] := by simp
      rw [happ, List.rtakeWhile_concat_pos _ _ _ (by simpa using Ne.symm hl.2), ih hl.1]
  exact key n.1 n.2.2.2.2

theorem basename_slash (a : Str) (n : Name) : basename (a ++ '/' :: n.1) = n.1 :=
  rtakeWhile_slash a n

theorem dirname_slash (ha : a ≠ []) (hl : a.getLast? ≠ some '/') (n : Name) :
    dirname (a ++ '/' :: n.1) = a := by
  have hhead : (a ++ '/' :: n.1).rdropWhile (· ≠ '/') = a ++ ['/'] := by
    have h := List.rdropWhile_append_rtakeWhile (l := a ++ '/' :: n.1) (p := (· ≠ '/'))
    rw [rtakeWhile_slash, List.append_cons] at h
    rw [List.append_cons]
    exact List.append_cancel_right h
  have hlast (hne : a ≠ []) : a.getLast hne ≠ '/' := by
    rw [List.getLast?_eq_some_getLast hne] at hl
    exact fun h => hl (congrArg some h)
  have hall : ¬ (a ++ ['/']).all (· = '/') = true := by
    rw [List.all_eq_true]
    intro hall
    have := hall (a.getLast ha) (List.mem_append_left _ (List.getLast_mem ha))
    exact hlast ha (by simpa using this)
  unfold dirname
  simp only [hhead]
  rw [if_neg hall, List.rdropWhile_concat_pos _ _ _ (by simp)]
  exact List.rdropWhile_eq_self_iff.mpr fun hne => by simpa using hlast hne

theorem Normal.getLast (h : Normal s) : s.getLast? ≠ some '/' := by
  intro hl
  obtain ⟨r, rfl⟩ := List.getLast?_eq_some_iff.mp hl
  have hs := List.splitOn_append_cons_self r [] (a := '/')
  rw [List.splitOn_nil] at hs
  exact (h [] (by rw [hs]; simp)).1 rfl

end PosixPath

namespace PosixCalls

open FileTree PosixPath

variable {t t' : Disk} {top x : Str} {n : Name} {r : Path}

/-- A normal string is appended name by name. -/
theorem join_normal (htop : top ≠ []) (hl : top.getLast? ≠ some '/') (hx : Normal x) :
    join top x = extend top (pathOf x) := by
  obtain ⟨n, r, hpath⟩ := List.exists_cons_of_ne_nil hx.pathOf_ne_nil
  obtain ⟨y, hy, hnorm, hypath, _⟩ := extend_eq htop hl n r
  have hxy : x = y := hx.eq_of_pathOf hnorm (hpath.trans hypath.symm)
  rw [hpath, hy, ← hxy]
  unfold join
  rw [if_neg hx.local.relative, if_neg (not_or.mpr ⟨htop, hl⟩)]

/-- Every path has a normal string. -/
theorem exists_normal (hr : r ≠ []) : ∃ y, Normal y ∧ pathOf y = r := by
  obtain ⟨n, r, rfl⟩ := List.exists_cons_of_ne_nil hr
  have hne : n.1 ≠ [] := n.2.1
  obtain ⟨y, _, hnorm, hpath, _⟩ := extend_eq hne (name_getLast n) n r
  exact ⟨y, hnorm, hpath⟩

theorem normal_dirname (hx : Normal x) (hpath : pathOf x = n :: r) :
    (r = [] ∧ dirname x = []) ∨ (Normal (dirname x) ∧ pathOf (dirname x) = r) := by
  by_cases hr : r = []
  · subst hr
    have hxn : x = n.1 := hx.eq_of_pathOf (normal_name n) (hpath.trans (pathOf_name n).symm)
    have hdrop : n.1.rdropWhile (· ≠ '/') = [] := by
      rw [List.rdropWhile_eq_nil_iff]
      intro c hc
      have hne : c ≠ '/' := fun h => n.2.2.2.2 (h ▸ hc)
      simpa using hne
    refine .inl ⟨rfl, ?_⟩
    rw [hxn]
    unfold dirname
    rw [hdrop]
    rfl
  · obtain ⟨y, hy, hypath⟩ := exists_normal hr
    have hxy : x = y ++ '/' :: n.1 := by
      apply hx.eq_of_pathOf (hy.slash (normal_name n))
      rw [hpath, pathOf_slash, pathOf_name, hypath]
      rfl
    have hdir : dirname x = y := by
      rw [hxy]
      exact dirname_slash hy.ne_nil hy.getLast n
    rw [hdir]
    exact .inr ⟨hy, hypath⟩

theorem normal_of_dirname (hx : Normal x) (hne : dirname x ≠ []) : Normal (dirname x) := by
  obtain ⟨n, r, hpath⟩ := List.exists_cons_of_ne_nil hx.pathOf_ne_nil
  rcases normal_dirname hx hpath with ⟨_, hnil⟩ | ⟨hn, _⟩
  · exact absurd hnil hne
  · exact hn

theorem prefix_of_suffix {a b : Str} (ha : Normal a) (hb : Normal b)
    (h : pathOf a <:+ pathOf b) (hne : pathOf a ≠ pathOf b) : a ++ ['/'] <+: b := by
  obtain ⟨r, hr⟩ := h
  obtain ⟨n, r', rfl⟩ := List.exists_cons_of_ne_nil (l := r) (by
    rintro rfl
    exact hne hr)
  obtain ⟨y, _, hnorm, hypath, _⟩ := extend_eq ha.ne_nil ha.getLast n r'
  have hbay : b = a ++ '/' :: y := by
    apply hb.eq_of_pathOf (ha.slash hnorm)
    rw [pathOf_slash, hypath, ← hr]
  rw [hbay]
  exact ⟨y, by simp⟩

/-! ## the strings of a walk -/

section
variable (hplain : Plain top) (hl : top.getLast? ≠ some '/')
include hplain hl

theorem extend_spec (r : Path) : Plain (extend top r) ∧ (extend top r).getLast? ≠ some '/' ∧
    pathOf (extend top r) = r ++ pathOf top := by
  cases r with
  | nil => exact ⟨hplain, hl, rfl⟩
  | cons n r =>
    obtain ⟨x, hx, hnorm, hpath, hlast⟩ := extend_eq hplain.1 hl n r
    have hloc := hnorm.local
    have hjoin : extend top (n :: r) = join top x := by
      rw [hx]
      unfold join
      rw [if_neg hloc.relative, if_neg (not_or.mpr ⟨hplain.1, hl⟩)]
    refine ⟨?_, ?_, ?_⟩
    · rw [hjoin]
      exact hplain.join hloc
    · rw [hx, List.getLast?_append, List.getLast?_cons_of_ne_nil hnorm.ne_nil]
      cases hc : x.getLast? with
      | none => exact absurd (List.getLast?_eq_none_iff.mp hc) hnorm.ne_nil
      | some c => exact fun h => hlast (hc.trans h)
    · rw [hjoin, pathOf_join hloc.relative hplain.1, hpath]

theorem extend_cons (n : Name) (r : Path) :
    extend top (n :: r) = extend top r ++ '/' :: n.1 :=
  join_of_getLast (extend_spec hplain hl r).1.1 (extend_spec hplain hl r).2.1 n

theorem dirname_extend (n : Name) (r : Path) : dirname (extend top (n :: r)) = extend top r := by
  rw [extend_cons hplain hl]
  exact dirname_slash (extend_spec hplain hl r).1.1 (extend_spec hplain hl r).2.1 n

theorem basename_extend (n : Name) (r : Path) : basename (extend top (n :: r)) = n.1 := by
  rw [extend_cons hplain hl]
  exact basename_slash _ n

theorem length_le_extend (r : Path) : r.length ≤ (extend top r).length := by
  induction r with
  | nil => exact Nat.zero_le _
  | cons n r ih =>
    rw [extend_cons hplain hl, List.length_append, List.length_cons, List.length_cons]
    omega

end

/-! ## makedirs -/

theorem exists_get {s : Str} (hs : Plain s) (h : «exists» t s = true) : t.get (pathOf s) ≠ none := by
  unfold «exists» resolve at h
  rw [if_neg hs.1] at h
  cases hr : resolveFrom t [] (components s) with
  | error e =>
    rw [hr] at h
    cases h
  | ok q =>
    rw [hr] at h
    have hq : q = pathOf s := resolveFrom_eq hs.2 hr
    rw [← hq]
    exact of_decide_eq_true h

theorem exists_of_dir {s : Str} (hs : Plain s) (h : t.get (pathOf s) = some .dir) :
    «exists» t s = true := by
  unfold «exists»
  rw [resolve_dir hs h]
  simp [h]

theorem isdir_of_dir {s : Str} (hs : Plain s) (h : t.get (pathOf s) = some .dir) :
    isdir t s = true := by
  unfold isdir
  rw [resolve_dir hs h]
  exact decide_eq_true h

/-- no file lies on the way from `p` down to `r` -/
def NoFile (t : Disk) (p r : Path) : Prop :=
  ∀ q, q <:+ r → t.get (q ++ p) = none ∨ t.get (q ++ p) = some .dir

theorem NoFile.tail {p : Path} (h : NoFile t p (n :: r)) : NoFile t p r :=
  fun q hq => h q (hq.trans (List.suffix_cons n r))

/-- a `mkdir` whose parent is a directory -/
theorem mkdirKeep_join {a : Str} (ha : Plain a) (h : t.get (pathOf a) = some .dir)
    (hn : t.get (n :: pathOf a) = none ∨ t.get (n :: pathOf a) = some .dir) :
    (mkdirKeep (join a n.1) t).2.get (n :: pathOf a) = some .dir ∧
      (t.get (n :: pathOf a) = none → (mkdirKeep (join a n.1) t).1 = .ok ()) := by
  unfold mkdirKeep
  rcases hn with hn | hn
  · obtain ⟨v, hv⟩ := mkdir_join ha h hn
    have hget := (mkdir_ok (ha.join (local_name n)) hv).2
    rw [pathOf_join_name ha.1] at hget
    rw [hv]
    exact ⟨(hget _).trans (if_pos rfl), fun _ => rfl⟩
  · rw [mkdir_exists ha h (by rw [hn]; exact Option.some_ne_none _)]
    refine ⟨hn, fun hnone => ?_⟩
    rw [hn] at hnone
    cases hnone

section
variable (hplain : Plain top) (hl : top.getLast? ≠ some '/') (hd : t.get (pathOf top) = some .dir)
include hplain hl hd

/-- The directory is made if it is not there; when it was not, no exception is raised. -/
theorem makedirsFrom_dir (fuel : ℕ) (hr : r ≠ []) (hfuel : r.length < fuel)
    (hno : NoFile t (pathOf top) r) :
    (makedirsFrom fuel (extend top r) t).2.get (r ++ pathOf top) = some .dir ∧
      (t.get (r ++ pathOf top) = none → (makedirsFrom fuel (extend top r) t).1 = .ok ()) := by
  induction fuel generalizing r with
  | zero => omega
  | succ fuel ih =>
    obtain ⟨n, r, rfl⟩ := List.exists_cons_of_ne_nil hr
    obtain ⟨hhead, hlast, hpath⟩ := extend_spec hplain hl r
    have hname : n.1 ≠ [] := n.2.1
    have hdot : n.1 ≠ ['.'] := n.2.2.1
    -- the last `mkdir`
    have hmk (u : Disk) (hu : u.get (r ++ pathOf top) = some .dir)
        (hn : u.get (n :: (r ++ pathOf top)) = none ∨ u.get (n :: (r ++ pathOf top)) = some .dir) :
        (mkdirKeep (extend top (n :: r)) u).2.get (n :: (r ++ pathOf top)) = some .dir ∧
          (u.get (n :: (r ++ pathOf top)) = none →
            (mkdirKeep (extend top (n :: r)) u).1 = .ok ()) := by
      rw [← hpath] at hu hn ⊢
      exact mkdirKeep_join hhead hu hn
    rw [makedirsFrom]
    simp only [dirname_extend hplain hl, basename_extend hplain hl, if_neg hname]
    rcases (hno.tail r (List.suffix_refl r)) with hnone | hdir
    · -- the parent has to be made first
      have hr' : r ≠ [] := by
        rintro rfl
        rw [List.nil_append, hd] at hnone
        cases hnone
      have hex : «exists» t (extend top r) = false := by
        by_contra h
        have := exists_get hhead (Bool.eq_true_of_not_eq_false h)
        rw [hpath] at this
        exact this hnone
      obtain ⟨ih1, ih2⟩ := ih hr' (by simp at hfuel; omega) hno.tail
      have hadds : AddsDirs (pathOf (extend top r)) t (makedirsFrom fuel (extend top r) t).2 :=
        makedirsFrom_adds fuel hhead
      rw [if_pos ⟨hhead.1, hname, hex⟩]
      cases hm : makedirsFrom fuel (extend top r) t with
      | mk res u =>
        rw [hm] at ih1 ih2 hadds
        have hres : res = .ok () := ih2 hnone
        subst hres
        have htn : t.get (n :: (r ++ pathOf top)) = none := by
          by_contra hne
          rw [Tree.get_parent hne] at hnone
          cases hnone
        have hchild : u.get (n :: (r ++ pathOf top)) = none := by
          rcases hadds (n :: (r ++ pathOf top)) with h | ⟨_, _, hsuf⟩
          · exact h.trans htn
          · rw [hpath] at hsuf
            exact absurd hsuf.length_le (by simp)
        dsimp only
        rw [if_neg hdot]
        exact ⟨(hmk u ih1 (.inl hchild)).1, fun _ => (hmk u ih1 (.inl hchild)).2 hchild⟩
    · have hex : «exists» t (extend top r) = true :=
        exists_of_dir hhead (by rw [hpath]; exact hdir)
      rw [if_neg]
      · exact hmk t hdir (hno (n :: r) (List.suffix_refl _))
      · rintro ⟨_, _, h⟩
        rw [hex] at h
        cases h

theorem makedirs_dir (hx : Normal x) (hno : NoFile t (pathOf top) (pathOf x)) :
    (makedirs (join top x) t).2.get (pathOf x ++ pathOf top) = some .dir := by
  unfold makedirs
  rw [join_normal hplain.1 hl hx]
  exact (makedirsFrom_dir hplain hl hd _ hx.pathOf_ne_nil
    (Nat.lt_succ_of_le (length_le_extend hplain hl _)) hno).1

end

theorem openAppend_join {a : Str} (ha : Plain a) (h : t.get (pathOf a) = some .dir)
    (hn : t.get (n :: pathOf a) ≠ some .dir) :
    ∃ u, openAppend (join a n.1) t = .ok ((n, pathOf a), u) := by
  unfold openAppend
  rw [target_join ha h]
  dsimp only
  split
  · next hd => exact absurd hd hn
  · exact ⟨_, rfl⟩
  · exact ⟨_, rfl⟩

end PosixCalls
