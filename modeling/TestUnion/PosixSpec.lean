import TestUnion.PosixCalls

/-!
# What the system calls do

For a string `s` without `".."` a call that succeeds changes the node at `pathOf s`.

* `resolve_join`, `exists_join`, `isdir_join`   a name in an existing directory;
* `mkdir_ok`, `openAppend_ok`, `unlink_ok`      what a successful call has done;
* `mkdir_join`, `unlink_file`, `rmdir_join`     when a call succeeds;
* `makedirs_adds`   `makedirs` makes directories on the way to its path, also when it fails.
-/

namespace PosixCalls

open FileTree PosixPath

variable {t t' : Disk} {s a : Str} {p q : Path} {n : Name} {cs : List Comp} {e : Errno}

/-! ## resolution -/

theorem resolveFrom_cons (c : Comp) :
    resolveFrom t p (c :: cs) = if t.get p ≠ some .dir then .error .enotdir
      else
        match c with
        | .stay => resolveFrom t p cs
        | .up => resolveFrom t p.tail cs
        | .down n => if t.get (n :: p) = none then .error .enoent else resolveFrom t (n :: p) cs := by
  cases c <;> rfl

theorem resolveFrom_eq (hno : Comp.up ∉ cs) (h : resolveFrom t p cs = .ok q) :
    q = cs.foldl stepTo p := by
  induction cs generalizing p with
  | nil => cases h; rfl
  | cons c cs ih =>
    have hno' := not_or.mp (List.mem_cons.not.mp hno)
    rw [resolveFrom_cons] at h
    split at h
    · cases h
    · cases c with
      | stay => exact ih hno'.2 h
      | up => exact absurd rfl hno'.1
      | down n =>
        simp only at h
        split at h
        · cases h
        · exact ih hno'.2 h

theorem get_of_foldl (cs : List Comp) (h : t.get (cs.foldl stepTo p) = some .dir) :
    t.get p = some .dir := by
  rw [foldl_stepTo] at h
  by_cases hr : cs.foldl stepTo [] = []
  · rw [hr] at h
    exact h
  · exact Tree.get_append (by rw [h]; exact Option.some_ne_none _) hr

theorem resolveFrom_dir (hno : Comp.up ∉ cs) (h : t.get (cs.foldl stepTo p) = some .dir) :
    resolveFrom t p cs = .ok (cs.foldl stepTo p) := by
  induction cs generalizing p with
  | nil => rfl
  | cons c cs ih =>
    have hno' := not_or.mp (List.mem_cons.not.mp hno)
    have hp : t.get p = some .dir := get_of_foldl (c :: cs) h
    rw [resolveFrom_cons, if_neg (not_not.mpr hp)]
    cases c with
    | stay => exact ih hno'.2 h
    | up => exact absurd rfl hno'.1
    | down n =>
      have hn : t.get (n :: p) = some .dir := get_of_foldl cs h
      simp only
      rw [if_neg (by rw [hn]; exact Option.some_ne_none _)]
      exact ih hno'.2 h

theorem resolveFrom_append (cs cs' : List Comp) (h : resolveFrom t p cs = .ok q) :
    resolveFrom t p (cs ++ cs') = resolveFrom t q cs' := by
  induction cs generalizing p with
  | nil => cases h; rfl
  | cons c cs ih =>
    rw [List.cons_append, resolveFrom_cons]
    rw [resolveFrom_cons] at h
    split at h
    · cases h
    · next hp =>
      rw [if_neg hp]
      cases c with
      | stay => exact ih h
      | up => exact ih h
      | down n =>
        simp only at h ⊢
        split at h
        · cases h
        · next hn =>
          rw [if_neg hn]
          exact ih h

theorem resolve_dir (hs : Plain s) (h : t.get (pathOf s) = some .dir) :
    resolve t s = .ok (pathOf s) := by
  unfold resolve
  rw [if_neg hs.1]
  exact resolveFrom_dir hs.2 h

/-- the components of a name in a directory -/
theorem components_join (ha : Plain a) (n : Name) :
    ∃ cs, components (join a n.1) = cs ++ [.down n] ∧ cs.foldl stepTo [] = pathOf a ∧
      Comp.up ∉ cs := by
  rcases join_slash (local_name n).relative ha.1 with h | ⟨c, rfl, h⟩
  · refine ⟨components a, ?_, rfl, ha.2⟩
    simp [h]
  · have hup := ha.2
    rw [components_slash, List.mem_append, not_or] at hup
    refine ⟨components c, ?_, ?_, hup.1⟩
    · simp [h]
    · show pathOf c = _
      rw [pathOf_slash]
      rfl

theorem resolve_join (ha : Plain a) (h : t.get (pathOf a) = some .dir) (n : Name) :
    resolve t (join a n.1)
      = if t.get (n :: pathOf a) = none then .error .enoent else .ok (n :: pathOf a) := by
  obtain ⟨cs, hcs, hp, hno⟩ := components_join ha n
  have hr : resolveFrom t [] cs = .ok (pathOf a) := by
    rw [← hp] at h ⊢
    exact resolveFrom_dir hno h
  unfold resolve
  rw [if_neg (ha.join (local_name n)).1, hcs, resolveFrom_append cs [.down n] hr,
    resolveFrom_cons, if_neg (not_not.mpr h)]
  rfl

theorem exists_join (ha : Plain a) (h : t.get (pathOf a) = some .dir) (n : Name) :
    «exists» t (join a n.1) = true ↔ t.get (n :: pathOf a) ≠ none := by
  unfold «exists»
  rw [resolve_join ha h]
  by_cases hn : t.get (n :: pathOf a) = none
  · simp [hn]
  · simp [hn]

theorem isdir_join (ha : Plain a) (h : t.get (pathOf a) = some .dir) (n : Name) :
    isdir t (join a n.1) = true ↔ t.get (n :: pathOf a) = some .dir := by
  unfold isdir
  rw [resolve_join ha h]
  by_cases hn : t.get (n :: pathOf a) = none
  · simp [hn]
  · simp [hn]

theorem listdir_dir (L : Listing Name) (hs : Plain s) (h : t.get (pathOf s) = some .dir) :
    listdir L t s = .ok (L.list t (pathOf s)) := by
  unfold listdir
  rw [resolve_dir hs h]
  exact if_pos h

/-! ## targets -/

theorem target_ok (hs : Plain s) (h : target e t s = .ok (n, p)) :
    pathOf s = n :: p ∧ t.get p = some .dir := by
  unfold target at h
  rw [if_neg hs.1] at h
  cases hr : resolveFrom t [] (components s).dropLast with
  | error e' => rw [hr] at h; cases h
  | ok q =>
    rw [hr] at h
    simp only at h
    split at h
    · cases h
    · next hd =>
      split at h
      · next m hm =>
        cases h
        obtain ⟨cs, hcs⟩ := List.getLast?_eq_some_iff.mp hm
        have hno := hs.2
        rw [hcs, List.mem_append, not_or] at hno
        rw [hcs, List.dropLast_concat] at hr
        refine ⟨?_, not_not.mp hd⟩
        unfold pathOf
        rw [hcs, List.foldl_append, ← resolveFrom_eq hno.1 hr]
        rfl
      · cases h

theorem target_of_components (hs : s ≠ []) (hcs : components s = cs ++ [.down n])
    (hno : Comp.up ∉ cs) (h : t.get (cs.foldl stepTo []) = some .dir) :
    target e t s = .ok (n, cs.foldl stepTo []) := by
  unfold target
  rw [if_neg hs, hcs, List.dropLast_concat, resolveFrom_dir hno h]
  simp only
  rw [if_neg (not_not.mpr h), List.getLast?_concat]

theorem target_join (ha : Plain a) (h : t.get (pathOf a) = some .dir) (n : Name) :
    target e t (join a n.1) = .ok (n, pathOf a) := by
  obtain ⟨cs, hcs, hp, hno⟩ := components_join ha n
  rw [← hp] at h ⊢
  exact target_of_components (ha.join (local_name n)).1 hcs hno h

/-- The target of a local string lies below the directory the string is joined to. -/
theorem target_local {x : Str} (ha : Plain a) (hx : Local x)
    (h : target e t (join a x) = .ok (n, p)) :
    n :: p = pathOf x ++ pathOf a ∧ pathOf a <:+ p ∧ t.get p = some .dir := by
  obtain ⟨hpath, hd⟩ := target_ok (ha.join hx) h
  rw [pathOf_join hx.relative ha.1] at hpath
  refine ⟨hpath.symm, ?_, hd⟩
  have hlast : (components (join a x)).getLast? = some (.down n) := by
    unfold target at h
    rw [if_neg (ha.join hx).1] at h
    split at h
    · cases h
    · split at h
      · cases h
      · split at h
        · next m hm =>
          cases h
          exact hm
        · cases h
  have hlx : (components x).getLast? = some (.down n) := by
    rcases join_slash hx.relative ha.1 with hj | ⟨c, _, hj⟩
    · rw [hj, components_slash, List.getLast?_append_of_ne_nil _ (components_ne_nil x)] at hlast
      exact hlast
    · rw [hj, components_slash, List.getLast?_append_of_ne_nil _ (components_ne_nil x)] at hlast
      exact hlast
  obtain ⟨cs, hcs⟩ := List.getLast?_eq_some_iff.mp hlx
  have hpx : pathOf x = n :: cs.foldl stepTo [] := by
    unfold pathOf
    rw [hcs, List.foldl_append]
    rfl
  rw [hpx] at hpath
  rw [← (List.cons.inj hpath).2]
  exact List.suffix_append _ _

/-! ## calls -/

theorem get_setSize (hp : t.get p = some .dir) (hn : t.get (n :: p) ≠ some .dir) (k : ℕ) (q : Path) :
    (setSize n p k t).get q = if q = n :: p then some (.file k) else t.get q := by
  unfold setSize
  rw [dif_pos ⟨hp, hn⟩]
  exact Tree.get_put hp hn q

theorem mkdir_ok (hs : Plain s) (h : mkdir s t = .ok t') :
    t.get (pathOf s) = none ∧
      ∀ q, t'.get q = if q = pathOf s then some .dir else t.get q := by
  unfold mkdir at h
  cases ht : target .eexist t s with
  | error e' => rw [ht] at h; cases h
  | ok r =>
    obtain ⟨n, p⟩ := r
    rw [ht] at h
    simp only at h
    obtain ⟨hpath, _⟩ := target_ok hs ht
    split at h
    · next hc =>
      cases h
      rw [hpath]
      exact ⟨hc.2, fun q => Tree.get_put _ _ q⟩
    · cases h

theorem mkdir_join (ha : Plain a) (h : t.get (pathOf a) = some .dir)
    (hn : t.get (n :: pathOf a) = none) : ∃ t', mkdir (join a n.1) t = .ok t' := by
  unfold mkdir
  rw [target_join ha h]
  simp only
  rw [dif_pos ⟨h, hn⟩]
  exact ⟨_, rfl⟩

theorem mkdir_exists (ha : Plain a) (h : t.get (pathOf a) = some .dir)
    (hn : t.get (n :: pathOf a) ≠ none) : mkdir (join a n.1) t = .error .eexist := by
  unfold mkdir
  rw [target_join ha h]
  simp only
  rw [dif_neg fun hx => hn hx.2]

theorem openAppend_ok (h : openAppend s t = .ok ((n, p), t')) :
    target .eisdir t s = .ok (n, p) ∧ t.get (n :: p) ≠ some .dir ∧ (t.get p = some .dir →
      ∀ q, t'.get q = if q = n :: p then some (.file ((t.size q).getD 0)) else t.get q) := by
  unfold openAppend at h
  cases ht : target .eisdir t s with
  | error e' => rw [ht] at h; cases h
  | ok r =>
    obtain ⟨m, r⟩ := r
    rw [ht] at h
    simp only at h
    split at h
    · cases h
    · next k hk =>
      cases h
      refine ⟨rfl, by rw [hk]; simp, ?_⟩
      intro _ q
      split
      · next hq => rw [hq, hk, Tree.size_eq_some.mpr hk]; rfl
      · rfl
    · next hk =>
      cases h
      have hnd : t.get (n :: p) ≠ some .dir := by rw [hk]; simp
      refine ⟨rfl, hnd, ?_⟩
      intro hdir q
      rw [get_setSize hdir hnd]
      split
      · next hq =>
        have hsize : t.size q = none := by
          unfold Tree.size
          rw [hq, hk]
        rw [hsize]
        rfl
      · rfl

theorem unlink_ok (hs : Plain s) (h : unlink s t = .ok t') :
    t.get (pathOf s) ≠ some .dir ∧
      ∀ q, t'.get q = if q = pathOf s then none else t.get q := by
  unfold unlink at h
  cases ht : target .eisdir t s with
  | error e' => rw [ht] at h; cases h
  | ok r =>
    obtain ⟨n, p⟩ := r
    rw [ht] at h
    simp only at h
    obtain ⟨hpath, _⟩ := target_ok hs ht
    split at h
    · cases h
    · split at h
      · cases h
      · next hd =>
        cases h
        rw [hpath]
        exact ⟨hd, fun q => Tree.get_erase _ q⟩

theorem unlink_local {x : Str} (ha : Plain a) (hx : Local x) (h : unlink (join a x) t = .ok t') :
    Within (pathOf a) t t' := by
  unfold unlink at h
  cases ht : target .eisdir t (join a x) with
  | error e' => rw [ht] at h; cases h
  | ok r =>
    obtain ⟨n, p⟩ := r
    rw [ht] at h
    simp only at h
    obtain ⟨_, hsuf, _⟩ := target_local ha hx ht
    split at h
    · cases h
    · split at h
      · cases h
      · cases h
        exact within_erase _ hsuf

/-- A string that ends in a name can be unlinked if a file is there. -/
theorem unlink_file {k : ℕ} (hs : Plain s) (hcs : components s = cs ++ [.down n])
    (h : t.get (pathOf s) = some (.file k)) : ∃ t', unlink s t = .ok t' := by
  have hno := hs.2
  rw [hcs, List.mem_append, not_or] at hno
  have hpath : pathOf s = n :: cs.foldl stepTo [] := by
    unfold pathOf
    rw [hcs, List.foldl_append]
    rfl
  rw [hpath] at h
  have hp : t.get (cs.foldl stepTo []) = some .dir :=
    Tree.get_parent (by rw [h]; exact Option.some_ne_none _)
  unfold unlink
  rw [target_of_components hs.1 hcs hno.1 hp]
  simp only
  rw [if_neg (by rw [h]; exact Option.some_ne_none _), dif_neg (by rw [h]; simp)]
  exact ⟨_, rfl⟩

theorem unlink_join {k : ℕ} (ha : Plain a) (h : t.get (n :: pathOf a) = some (.file k)) :
    ∃ t', unlink (join a n.1) t = .ok t' ∧
      ∀ q, t'.get q = if q = n :: pathOf a then none else t.get q := by
  obtain ⟨cs, hcs, _, _⟩ := components_join ha n
  have hs := ha.join (local_name n)
  have hpath := pathOf_join_name ha.1 n
  obtain ⟨t', ht⟩ := unlink_file hs hcs (by rw [hpath]; exact h)
  refine ⟨t', ht, ?_⟩
  rw [← hpath]
  exact (unlink_ok hs ht).2

theorem rmdir_join (ha : Plain a) (h : t.get (n :: pathOf a) = some .dir)
    (hc : ∀ m, t.get (m :: n :: pathOf a) = none) :
    ∃ t', rmdir (join a n.1) t = .ok t' ∧
      ∀ q, t'.get q = if q = n :: pathOf a then none else t.get q := by
  have hne : t.get (n :: pathOf a) ≠ none := by
    rw [h]
    exact Option.some_ne_none _
  have hp : t.get (pathOf a) = some .dir := Tree.get_parent hne
  unfold rmdir
  rw [target_join ha hp]
  simp only
  rw [if_neg hne, if_neg (not_not.mpr h), dif_pos (Tree.childless_iff.mpr hc)]
  exact ⟨_, rfl, fun q => Tree.get_erase hc q⟩

/-! ## makedirs -/

theorem mkdirKeep_adds (hs : Plain s) : AddsDirs (pathOf s) t (mkdirKeep s t).2 := by
  unfold mkdirKeep
  cases h : mkdir s t with
  | error e => exact AddsDirs.refl _ _
  | ok t' =>
    obtain ⟨hnone, hget⟩ := mkdir_ok hs h
    intro q
    show t'.get q = t.get q ∨ (t.get q = none ∧ t'.get q = some .dir ∧ q <:+ pathOf s)
    rw [hget q]
    split
    · next hq =>
      subst hq
      exact .inr ⟨hnone, rfl, List.suffix_refl _⟩
    · exact .inl rfl

/-- The directory that `makedirs` comes to next lies on the way to its path. -/
theorem head_on_way (hs : Plain s) {head tail : Str}
    (h : (if basename s = [] then (dirname (dirname s), basename (dirname s))
      else (dirname s, basename s)) = (head, tail)) :
    pathOf head <:+ pathOf s ∧ (head ≠ [] → Plain head) := by
  split at h
  · cases h
    refine ⟨(pathOf_dirname _).trans (pathOf_dirname s), ?_⟩
    intro hne
    exact ⟨hne, up_dirname (up_dirname hs.2)⟩
  · cases h
    exact ⟨pathOf_dirname s, fun hne => hs.dirname hne⟩

theorem makedirsFrom_adds (fuel : ℕ) (hs : Plain s) :
    AddsDirs (pathOf s) t (makedirsFrom fuel s t).2 := by
  induction fuel generalizing s t with
  | zero => exact AddsDirs.refl _ _
  | succ fuel ih =>
    rw [makedirsFrom]
    dsimp only
    generalize hsplit : (if basename s = [] then _ else _ : Str × Str) = r
    obtain ⟨head, tail⟩ := r
    obtain ⟨hsuf, hplain⟩ := head_on_way hs hsplit
    dsimp only
    split
    · next hc =>
      have h1 : AddsDirs (pathOf s) t (makedirsFrom fuel head t).2 :=
        (ih (hplain hc.1)).mono hsuf
      have h2 : AddsDirs (pathOf s) t (mkdirKeep s (makedirsFrom fuel head t).2).2 :=
        h1.trans (mkdirKeep_adds hs)
      cases hm : makedirsFrom fuel head t with
      | mk r u =>
        rw [hm] at h1 h2
        cases r with
        | error e =>
          dsimp only
          split
          · exact h1
          · split
            · exact h1
            · exact h2
        | ok v =>
          dsimp only
          split
          · exact h1
          · exact h2
    · exact mkdirKeep_adds hs

theorem makedirs_adds (hs : Plain s) : AddsDirs (pathOf s) t (makedirs s t).2 :=
  makedirsFrom_adds _ hs

end PosixCalls
