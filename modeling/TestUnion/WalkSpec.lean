import TestUnion.ExceptLoop
import TestUnion.PosixSpec

/-!
# What `os.walk` visits

* `dirsAt`, `filesAt`   the two lists that a directory yields;
* `extend top r`        the string of the directory that is reached from `top` along `r`;
* `visits`, `walk_topdown`   on a tree that does not change a top-down walk is a loop over the
                        directories below `top`;
* `allFiles`            the files below `top`, in the order in which such a walk comes to them.

A walk is given enough depth when it exceeds the number of nodes below its top.
-/

namespace PosixCalls

open FileTree PosixPath ExceptLoop

def dirsAt (L : Listing Name) (t : Disk) (p : Path) : List Name :=
  (L.list t p).filter fun n => t.get (n :: p) = some .dir

def filesAt (L : Listing Name) (t : Disk) (p : Path) : List Name :=
  (L.list t p).filter fun n => ¬ t.get (n :: p) = some .dir

def extend (top : Str) : Path → Str
  | [] => top
  | n :: r => join (extend top r) n.1

/-- the directories of a top-down walk, relative to its top -/
def visits (L : Listing Name) (t : Disk) : ℕ → Path → List Path
  | 0, _ => []
  | fuel + 1, p =>
    [] :: (dirsAt L t p).flatMap fun n => (visits L t fuel (n :: p)).map fun r => r ++ [n]

/-- the files of a top-down walk, relative to its top -/
def allFiles (L : Listing Name) (t : Disk) (fuel : ℕ) (p : Path) : List Path :=
  (visits L t fuel p).flatMap fun r => (filesAt L t (r ++ p)).map fun n => n :: r

variable {L : Listing Name} {t : Disk} {p q : Path} {n : Name} {top : Str}

@[simp] theorem mem_dirsAt : n ∈ dirsAt L t p ↔ t.get (n :: p) = some .dir := by
  unfold dirsAt
  rw [List.mem_filter, L.mem, decide_eq_true_iff]
  refine ⟨?_, ?_⟩
  · exact fun h => h.2
  · intro h
    exact ⟨by rw [h]; exact Option.some_ne_none _, h⟩

@[simp] theorem mem_filesAt : n ∈ filesAt L t p ↔ ∃ k, t.get (n :: p) = some (.file k) := by
  unfold filesAt
  rw [List.mem_filter, L.mem, decide_eq_true_iff]
  refine ⟨?_, ?_⟩
  · intro hex
    obtain ⟨h1, h2⟩ := hex
    cases hg : t.get (n :: p) with
    | none => exact absurd hg h1
    | some x =>
      cases x with
      | file k => exact ⟨k, rfl⟩
      | dir => exact absurd hg h2
  · intro hall
    obtain ⟨k, h⟩ := hall
    rw [h]
    exact ⟨Option.some_ne_none _, by simp⟩

theorem nodup_dirsAt : (dirsAt L t p).Nodup := (L.nodup t p).filter _

theorem nodup_filesAt : (filesAt L t p).Nodup := (L.nodup t p).filter _

/-! ## strings -/

@[simp] theorem extend_append (top : Str) (r : Path) (n : Name) :
    extend top (r ++ [n]) = extend (join top n.1) r := by
  induction r with
  | nil => rfl
  | cons m r ih =>
    show join (extend top (r ++ [n])) m.1 = join (extend (join top n.1) r) m.1
    rw [ih]

theorem name_getLast (n : Name) : n.1.getLast? ≠ some '/' := by
  intro h
  exact n.2.2.2.2 (List.mem_of_getLast? h)

theorem join_of_getLast {a : Str} (ha : a ≠ []) (hl : a.getLast? ≠ some '/') (n : Name) :
    join a n.1 = a ++ '/' :: n.1 := by
  unfold join
  rw [if_neg (local_name n).relative, if_neg (not_or.mpr ⟨ha, hl⟩)]

theorem getLast_slash_name (a : Str) (n : Name) : (a ++ '/' :: n.1).getLast? ≠ some '/' := by
  have hne : n.1 ≠ [] := n.2.1
  rw [List.getLast?_append, List.getLast?_cons_of_ne_nil hne]
  cases hl : n.1.getLast? with
  | none => exact absurd (List.getLast?_eq_none_iff.mp hl) hne
  | some c =>
    intro h
    exact name_getLast n (hl.trans h)

/-- Below the top the string goes on with a slash and a normal string. -/
theorem extend_eq (htop : top ≠ []) (hl : top.getLast? ≠ some '/') (n : Name) (r : Path) :
    ∃ x, extend top (n :: r) = top ++ '/' :: x ∧ Normal x ∧ pathOf x = n :: r ∧
      x.getLast? ≠ some '/' := by
  induction r generalizing n with
  | nil =>
    exact ⟨n.1, join_of_getLast htop hl n, normal_name n, pathOf_name n, name_getLast n⟩
  | cons m r ih =>
    obtain ⟨x, hx, hnorm, hpath, hlast⟩ := ih m
    have hne : top ++ '/' :: x ≠ [] := by simp
    have hlast' : (top ++ '/' :: x).getLast? ≠ some '/' := by
      rw [List.getLast?_append, List.getLast?_cons_of_ne_nil hnorm.ne_nil]
      cases hc : x.getLast? with
      | none => exact absurd (List.getLast?_eq_none_iff.mp hc) hnorm.ne_nil
      | some c =>
        intro h
        exact hlast (hc.trans h)
    refine ⟨x ++ '/' :: n.1, ?_, hnorm.slash (normal_name n), ?_, getLast_slash_name x n⟩
    · show join (extend top (m :: r)) n.1 = _
      rw [hx, join_of_getLast hne hlast']
      simp
    · rw [pathOf_slash, pathOf_name, hpath]
      rfl

/-! ## one directory -/

section
variable {σ ε : Type} {tree : σ → Disk} {tooDeep : ε} {topdown : Bool}
  {body : Str → List Name → List Name → σ → Except ε σ} {s : σ}

theorem walk_dir (hplain : Plain top) (hd : (tree s).get (pathOf top) = some .dir) (fuel : ℕ) :
    walk L tree tooDeep topdown body (fuel + 1) top s = (do
      let dirs := dirsAt L (tree s) (pathOf top)
      let files := filesAt L (tree s) (pathOf top)
      let s ← if topdown then body top dirs files s else .ok s
      let s ← dirs.foldlM (fun s n => walk L tree tooDeep topdown body fuel (join top n.1) s) s
      if topdown then .ok s else body top dirs files s) := by
  have h1 : ((L.list (tree s) (pathOf top)).filter fun n => isdir (tree s) (join top n.1))
      = dirsAt L (tree s) (pathOf top) := by
    apply List.filter_congr
    intro n _
    rw [Bool.eq_iff_iff, isdir_join hplain hd, decide_eq_true_iff]
  have h2 : ((L.list (tree s) (pathOf top)).filter fun n => !isdir (tree s) (join top n.1))
      = filesAt L (tree s) (pathOf top) := by
    apply List.filter_congr
    intro n _
    rw [Bool.eq_iff_iff, Bool.not_eq_true', ← Bool.not_eq_true, isdir_join hplain hd,
      decide_eq_true_iff]
  rw [walk, listdir_dir L hplain hd]
  simp only [h1, h2]

theorem walk_dir_topdown (hplain : Plain top) (hd : (tree s).get (pathOf top) = some .dir)
    (fuel : ℕ) :
    walk L tree tooDeep true body (fuel + 1) top s =
      body top (dirsAt L (tree s) (pathOf top)) (filesAt L (tree s) (pathOf top)) s >>= fun u =>
        (dirsAt L (tree s) (pathOf top)).foldlM
          (fun s n => walk L tree tooDeep true body fuel (join top n.1) s) u := by
  rw [walk_dir hplain hd]
  show (body top _ _ s >>= fun u => List.foldlM _ u _ >>= fun v => Except.ok v) = _
  congr 1
  funext u
  exact bind_pure _

theorem walk_dir_bottomup (hplain : Plain top) (hd : (tree s).get (pathOf top) = some .dir)
    (fuel : ℕ) :
    walk L tree tooDeep false body (fuel + 1) top s =
      (dirsAt L (tree s) (pathOf top)).foldlM
        (fun s n => walk L tree tooDeep false body fuel (join top n.1) s) s >>=
      body top (dirsAt L (tree s) (pathOf top)) (filesAt L (tree s) (pathOf top)) :=
  walk_dir hplain hd fuel

/-! ## a tree that does not change -/

theorem walk_topdown (htree : ∀ s, tree s = t) (fuel : ℕ) (hplain : Plain top)
    (hd : t.get (pathOf top) = some .dir) (hfuel : t.below (pathOf top) < fuel) (s : σ) :
    walk L tree tooDeep true body fuel top s =
      (visits L t fuel (pathOf top)).foldlM (fun s r => body (extend top r)
        (dirsAt L t (r ++ pathOf top)) (filesAt L t (r ++ pathOf top)) s) s := by
  induction fuel generalizing top s with
  | zero => omega
  | succ fuel ih =>
    rw [walk_dir_topdown hplain (by rw [htree]; exact hd), visits, List.foldlM_cons, htree]
    show _ = (body top (dirsAt L t (pathOf top)) (filesAt L t (pathOf top)) s >>= fun s => _)
    congr 1
    funext u
    rw [foldlM_flatMap]
    apply foldlM_congr
    intro n hn u
    have hn' : t.get (n :: pathOf top) = some .dir := mem_dirsAt.mp hn
    have hpath : pathOf (join top n.1) = n :: pathOf top := pathOf_join_name hplain.1 n
    have hlt := Tree.below_child (t := t) (n := n) (p := pathOf top)
      (by rw [hn']; exact Option.some_ne_none _)
    rw [ih (hplain.join (local_name n)) (by rw [hpath]; exact hn') (by rw [hpath]; omega),
      List.foldlM_map, hpath]
    apply foldlM_congr
    intro r _ v
    rw [extend_append, List.append_assoc]
    rfl

end

/-! ## the files of a walk -/

theorem mem_visits (fuel : ℕ) (hd : t.get p = some .dir) (hfuel : t.below p < fuel) (r : Path) :
    r ∈ visits L t fuel p ↔ t.get (r ++ p) = some .dir := by
  induction fuel generalizing p r with
  | zero => omega
  | succ fuel ih =>
    have hchild (n : Name) (hn : t.get (n :: p) = some .dir) : t.below (n :: p) < fuel := by
      have := Tree.below_child (t := t) (n := n) (p := p) (by rw [hn]; exact Option.some_ne_none _)
      omega
    rw [visits, List.mem_cons, List.mem_flatMap]
    refine ⟨?_, ?_⟩
    · rintro (rfl | ⟨n, hn, hr⟩)
      · exact hd
      · obtain ⟨r', hr', rfl⟩ := List.mem_map.mp hr
        have hn' := mem_dirsAt.mp hn
        rw [List.append_assoc]
        exact (ih hn' (hchild n hn') r').mp hr'
    · intro hr
      by_cases hnil : r = []
      · exact .inl hnil
      · right
        obtain ⟨r', n, rfl⟩ : ∃ r' n, r = r' ++ [n] :=
          ⟨r.dropLast, r.getLast hnil, (List.dropLast_concat_getLast hnil).symm⟩
        rw [List.append_assoc] at hr
        have hn : t.get (n :: p) = some .dir := by
          by_cases hr' : r' = []
          · rw [hr'] at hr
            exact hr
          · exact Tree.get_append (by
              show t.get (r' ++ ([n] ++ p)) ≠ none
              rw [hr]
              exact Option.some_ne_none _) hr'
        exact ⟨n, mem_dirsAt.mpr hn, List.mem_map.mpr ⟨r', (ih hn (hchild n hn) r').mpr hr, rfl⟩⟩

theorem nodup_visits (fuel : ℕ) (p : Path) : (visits L t fuel p).Nodup := by
  induction fuel generalizing p with
  | zero => exact List.nodup_nil
  | succ fuel ih =>
    rw [visits, List.nodup_cons]
    refine ⟨?_, ?_⟩
    · simp
    · rw [List.nodup_flatMap]
      refine ⟨fun n _ => (ih (n :: p)).map fun a b h => List.append_cancel_right h, ?_⟩
      apply nodup_dirsAt.imp
      intro n m hne
      rw [Function.onFun, List.disjoint_left]
      intro r hr hr'
      obtain ⟨a, _, rfl⟩ := List.mem_map.mp hr
      obtain ⟨b, _, hb⟩ := List.mem_map.mp hr'
      have := congrArg List.getLast? hb
      simp only [List.getLast?_concat, Option.some.injEq] at this
      exact hne this.symm

theorem mem_allFiles (fuel : ℕ) (hd : t.get p = some .dir) (hfuel : t.below p < fuel) (r : Path) :
    r ∈ allFiles L t fuel p ↔ r ≠ [] ∧ ∃ k, t.get (r ++ p) = some (.file k) := by
  unfold allFiles
  rw [List.mem_flatMap]
  refine ⟨?_, ?_⟩
  · intro h
    obtain ⟨r', _, hr⟩ := h
    obtain ⟨n, hn, rfl⟩ := List.mem_map.mp hr
    exact ⟨List.cons_ne_nil _ _, mem_filesAt.mp hn⟩
  · intro hex
    obtain ⟨hne, hk⟩ := hex
    obtain ⟨n, r', rfl⟩ := List.exists_cons_of_ne_nil hne
    refine ⟨r', (mem_visits fuel hd hfuel r').mpr ?_, List.mem_map.mpr ⟨n, mem_filesAt.mpr hk, rfl⟩⟩
    obtain ⟨k, hk⟩ := hk
    exact Tree.get_parent (n := n) (by
      show t.get (n :: r' ++ p) ≠ none
      rw [hk]
      exact Option.some_ne_none _)

theorem nodup_allFiles (fuel : ℕ) (p : Path) : (allFiles L t fuel p).Nodup := by
  unfold allFiles
  rw [List.nodup_flatMap]
  refine ⟨fun r _ => nodup_filesAt.map fun a b h => (List.cons.inj h).1, ?_⟩
  apply (nodup_visits fuel p).imp
  intro r r' hne
  rw [Function.onFun, List.disjoint_left]
  intro x hx hx'
  obtain ⟨n, _, rfl⟩ := List.mem_map.mp hx
  obtain ⟨m, _, hm⟩ := List.mem_map.mp hx'
  exact hne (List.cons.inj hm).2.symm

end PosixCalls
