import TestUnion.WalkSpec
import TestUnion.Compilebench.Trees

/-!
# compilebench: `rmrf` and `clean_directory`

* `dirOf env d`     the path of the top-level directory `d` of the working directory;
* `rmrf_spec`       `rmrf` removes everything strictly below its directory, and nothing else;
* `rmrf_total`      it raises nothing, also where there is no such directory;
* `rmrf_within`, `cleanLoop_within`   both change only what lies below their directory;
* `cleanDirectory_ok`   `clean_directory` returns iff its loop does and some time has passed.
-/

namespace Compilebench

open FileTree PosixPath PosixCalls ExceptLoop

def Env.base (env : Env) : Path := pathOf env.benchdir

/-- the path of `os.path.join(benchdir, d)` -/
def dirOf (env : Env) (d : Name) : Path := d :: env.base

variable {env : Env} {t t' : Disk} {d : Name} {top : Str}

theorem plain_curdir (env : Env) (d : Name) : Plain (join env.benchdir d.1) :=
  env.plain.join (local_name d)

theorem pathOf_curdir (env : Env) (d : Name) : pathOf (join env.benchdir d.1) = dirOf env d :=
  pathOf_join_name env.plain.1 d

theorem below_lt_depth (t : Disk) (p : Path) : t.below p < depth t :=
  Nat.lt_succ_of_le (Finset.card_filter_le _ _)

theorem call_ok {α : Type} {x : Except Errno α} {a : α} : call x = .ok a ↔ x = .ok a := by
  cases x <;> simp [call]

/-! ## rmrf -/

/-- A loop that removes the children `l` of a directory one by one. -/
theorem foldlM_erase {F : Disk → Name → Except Exn Disk} {p : Path} {l : List Name}
    (hl : l.Nodup)
    (hF : ∀ u, ∀ n ∈ l, (∀ q, n :: p <:+ q → u.get q = t.get q) →
      ∃ u', F u n = .ok u' ∧ ∀ q, u'.get q = if q = n :: p then none else u.get q) :
    ∃ t', l.foldlM F t = .ok t' ∧
      ∀ q, t'.get q = if q ∈ l.map (· :: p) then none else t.get q := by
  apply foldlM_total (I := fun pre (u : Disk) =>
    ∀ q, u.get q = if q ∈ pre.map (· :: p) then none else t.get q)
  · intro q
    rfl
  · intro pre n post u hpre hu
    have hn : n ∉ pre := by
      rw [hpre] at hl
      intro hmem
      exact List.disjoint_of_nodup_append hl hmem (List.mem_cons_self ..)
    have hsame (q : Path) (hq : n :: p <:+ q) : u.get q = t.get q := by
      rw [hu q, if_neg]
      intro hmem
      obtain ⟨m, hm, rfl⟩ := List.mem_map.mp hmem
      have heq := hq.eq_of_length (by simp)
      rw [(List.cons.inj heq).1] at hn
      exact hn hm
    obtain ⟨u', hu', hget⟩ := hF u n (by rw [hpre]; simp) hsame
    refine ⟨u', hu', ?_⟩
    intro q
    have hmem : q ∈ (pre ++ [n]).map (· :: p) ↔ q ∈ pre.map (· :: p) ∨ q = n :: p := by
      rw [List.map_append, List.mem_append, List.map_singleton, List.mem_singleton]
    rw [hget q, hu q]
    by_cases hq : q = n :: p
    · rw [if_pos hq, if_pos (hmem.mpr (.inr hq))]
    · rw [if_neg hq]
      by_cases hq' : q ∈ pre.map (· :: p)
      · rw [if_pos hq', if_pos (hmem.mpr (.inl hq'))]
      · rw [if_neg hq', if_neg (hmem.not.mpr (not_or.mpr ⟨hq', hq⟩))]

/-- the body of the loop of `rmrf` -/
def removeBody (root : Str) (dirs files : List Name) (t : Disk) : Except Exn Disk := do
  let t ← files.foldlM (fun t name => call (unlink (join root name.1) t)) t
  dirs.foldlM (fun t name => call (rmdir (join root name.1) t)) t

/-- What lies below the directories `l` of `p` is removed; the directories themselves are not. -/
theorem get_child_of_emptied {u : Disk} {p : Path} {l : List Name}
    (hu : ∀ q, u.get q = if ∃ n ∈ l, Below (n :: p) q then none else t.get q) (n : Name) :
    u.get (n :: p) = t.get (n :: p) := by
  rw [hu, if_neg]
  intro h
  obtain ⟨m, _, hm⟩ := h
  have hlt := hm.length_lt
  rw [List.length_cons, List.length_cons] at hlt
  omega

/-- A node strictly below a directory is one of its directories, one of its files, or lies below
one of its directories. -/
theorem below_iff_listed {L : Listing Name} {p q : Path} (hne : t.get q ≠ none) :
    Below p q ↔ (q ∈ (dirsAt L t p).map (· :: p) ∨ q ∈ (filesAt L t p).map (· :: p)) ∨
      ∃ n ∈ dirsAt L t p, Below (n :: p) q := by
  refine ⟨?_, ?_⟩
  · intro hb
    obtain ⟨m, hm⟩ := hb.child
    have hm' := Tree.get_ne_none_of_suffix hne hm
    by_cases hdir : t.get (m :: p) = some .dir
    · by_cases hq : q = m :: p
      · exact .inl (.inl (List.mem_map.mpr ⟨m, mem_dirsAt.mpr hdir, hq.symm⟩))
      · exact .inr ⟨m, mem_dirsAt.mpr hdir, hm, hq⟩
    · have hq : q = m :: p := by
        by_contra hq
        exact hdir (Tree.get_of_suffix hne hm (Ne.symm hq))
      refine .inl (.inr (List.mem_map.mpr ⟨m, mem_filesAt.mpr ?_, hq.symm⟩))
      cases hg : t.get (m :: p) with
      | none => exact absurd hg hm'
      | some x =>
        cases x with
        | file k => exact ⟨k, rfl⟩
        | dir => exact absurd hg hdir
  · intro h
    rcases h with (hmem | hmem) | ⟨n, -, hn⟩
    · obtain ⟨m, -, rfl⟩ := List.mem_map.mp hmem
      exact below_cons
    · obtain ⟨m, -, rfl⟩ := List.mem_map.mp hmem
      exact below_cons
    · exact hn.of_suffix (List.suffix_cons _ _)

theorem unlinkLoop_spec (hplain : Plain top) {l : List Name} (hl : l.Nodup)
    (hfile : ∀ n ∈ l, ∃ k, t.get (n :: pathOf top) = some (.file k)) :
    ∃ t', l.foldlM (fun t name => call (unlink (join top name.1) t)) t = .ok t' ∧
      ∀ q, t'.get q = if q ∈ l.map (· :: pathOf top) then none else t.get q := by
  apply foldlM_erase hl
  intro u n hn hu
  obtain ⟨k, hk⟩ := hfile n hn
  rw [← hu _ (List.suffix_refl _)] at hk
  obtain ⟨u', hu', hget⟩ := unlink_join hplain hk
  exact ⟨u', call_ok.mpr hu', hget⟩

theorem rmdirLoop_spec (hplain : Plain top) {l : List Name} (hl : l.Nodup)
    (hdir : ∀ n ∈ l, t.get (n :: pathOf top) = some .dir)
    (hempty : ∀ n ∈ l, ∀ m, t.get (m :: n :: pathOf top) = none) :
    ∃ t', l.foldlM (fun t name => call (rmdir (join top name.1) t)) t = .ok t' ∧
      ∀ q, t'.get q = if q ∈ l.map (· :: pathOf top) then none else t.get q := by
  apply foldlM_erase hl
  intro u n hn hu
  have hd := hdir n hn
  rw [← hu _ (List.suffix_refl _)] at hd
  obtain ⟨u', hu', hget⟩ := rmdir_join hplain hd fun m => by
    rw [hu _ (List.suffix_cons _ _), hempty n hn m]
  exact ⟨u', call_ok.mpr hu', hget⟩

/-- The subdirectories are empty already, so the body empties the directory. -/
theorem removeBody_spec {u : Disk} (L : Listing Name) (hplain : Plain top)
    (hu : ∀ q, u.get q = if ∃ n ∈ dirsAt L t (pathOf top), Below (n :: pathOf top) q then none
      else t.get q) :
    ∃ t', removeBody top (dirsAt L t (pathOf top)) (filesAt L t (pathOf top)) u = .ok t' ∧
      ∀ q, t'.get q = if Below (pathOf top) q then none else t.get q := by
  have hchild := get_child_of_emptied hu
  obtain ⟨v, hv, hvget⟩ := unlinkLoop_spec (t := u) hplain (nodup_filesAt (L := L) (t := t))
    fun n hn => by
      rw [hchild n]
      exact mem_filesAt.mp hn
  have hvdir (n : Name) (hn : n ∈ dirsAt L t (pathOf top)) (q : Path) (hq : n :: pathOf top <:+ q) :
      v.get q = u.get q := by
    rw [hvget q, if_neg]
    intro hmem
    obtain ⟨m, hm, rfl⟩ := List.mem_map.mp hmem
    have heq : n = m := (List.cons.inj (hq.eq_of_length (by simp))).1
    obtain ⟨k, hk⟩ := mem_filesAt.mp hm
    rw [← heq, mem_dirsAt.mp hn] at hk
    cases hk
  obtain ⟨w, hw, hwget⟩ := rmdirLoop_spec (t := v) hplain (nodup_dirsAt (L := L) (t := t))
    (fun n hn => by
      rw [hvdir n hn _ (List.suffix_refl _), hchild n]
      exact mem_dirsAt.mp hn)
    (fun n hn m => by
      rw [hvdir n hn _ (List.suffix_cons _ _), hu, if_pos ⟨n, hn, below_cons⟩])
  refine ⟨w, ?_, ?_⟩
  · unfold removeBody
    rw [hv]
    exact hw
  · intro q
    rw [hwget q, hvget q, hu q]
    by_cases hne : t.get q = none
    · simp only [hne, ite_self]
    · rw [← ite_or, ← ite_or]
      exact if_congr (below_iff_listed hne).symm rfl rfl

theorem removeWalk_spec (L : Listing Name) (fuel : ℕ) (hplain : Plain top)
    (hd : t.get (pathOf top) = some .dir) (hfuel : t.below (pathOf top) < fuel) :
    ∃ t', walk L id .endless false removeBody fuel top t = .ok t' ∧
      ∀ q, t'.get q = if Below (pathOf top) q then none else t.get q := by
  induction fuel generalizing top t with
  | zero => omega
  | succ fuel ih =>
    have hpath (n : Name) : pathOf (join top n.1) = n :: pathOf top := pathOf_join_name hplain.1 n
    obtain ⟨u, hu, huget⟩ := foldlM_total (l := dirsAt L t (pathOf top))
      (f := fun s n => walk L id .endless false removeBody fuel (join top n.1) s)
      (I := fun pre (u : Disk) => ∀ q, u.get q = if ∃ n ∈ pre, Below (n :: pathOf top) q then none
        else t.get q) (s := t) (by intro q; simp) (by
      intro pre n post u hl hu
      have hn : t.get (n :: pathOf top) = some .dir := mem_dirsAt.mp (by rw [hl]; simp)
      have hlt := Tree.below_child (t := t) (n := n) (p := pathOf top)
        (by rw [hn]; exact Option.some_ne_none _)
      have hun : u.get (n :: pathOf top) = some .dir := by
        rw [get_child_of_emptied hu n, hn]
      have hle : u.below (n :: pathOf top) ≤ t.below (n :: pathOf top) := by
        apply Tree.below_le
        intro q _ hq
        rw [hu q] at hq
        split at hq
        · exact absurd rfl hq
        · exact hq
      obtain ⟨u', hu', hget⟩ := @ih u (join top n.1) (hplain.join (local_name n))
        (by rw [hpath]; exact hun) (by rw [hpath]; omega)
      refine ⟨u', hu', ?_⟩
      intro q
      rw [hget q, hpath, hu q]
      by_cases h1 : Below (n :: pathOf top) q
      · rw [if_pos h1, if_pos ⟨n, by simp, h1⟩]
      · rw [if_neg h1]
        by_cases h2 : ∃ m ∈ pre, Below (m :: pathOf top) q
        · obtain ⟨m, hm, hb⟩ := h2
          rw [if_pos ⟨m, hm, hb⟩, if_pos ⟨m, List.mem_append_left _ hm, hb⟩]
        · rw [if_neg h2, if_neg]
          intro hex
          obtain ⟨m, hm, hb⟩ := hex
          rcases List.mem_append.mp hm with hm | hm
          · exact h2 ⟨m, hm, hb⟩
          · rw [List.mem_singleton.mp hm] at hb
            exact h1 hb)
    obtain ⟨t', ht', hget⟩ := removeBody_spec L hplain huget
    refine ⟨t', ?_, hget⟩
    rw [walk_dir_bottomup hplain hd]
    show (dirsAt L t (pathOf top)).foldlM _ t >>= _ = _
    rw [hu]
    exact ht'

theorem rmrf_spec (hd : t.get (dirOf env d) = some .dir) :
    ∃ t', rmrf env d.1 t = .ok t' ∧
      ∀ q, t'.get q = if Below (dirOf env d) q then none else t.get q := by
  rw [← pathOf_curdir] at hd ⊢
  exact removeWalk_spec env.ls _ (plain_curdir env d) hd (below_lt_depth t _)

/-- Where there is no directory to list, a walk does nothing. -/
theorem walk_not_dir {σ : Type} (tree : σ → Disk) {tooDeep : Exn} {topdown : Bool}
    {body : Str → List Name → List Name → σ → Except Exn σ} {s : σ} {fuel : ℕ}
    (hb : (tree s).get env.base = some .dir) (hd : (tree s).get (dirOf env d) ≠ some .dir) :
    walk env.ls tree tooDeep topdown body (fuel + 1) (join env.benchdir d.1) s = .ok s := by
  have hl : ∃ e, listdir env.ls (tree s) (join env.benchdir d.1) = .error e := by
    unfold listdir
    rw [resolve_join env.plain hb]
    by_cases hn : (tree s).get (d :: pathOf env.benchdir) = none
    · rw [if_pos hn]
      exact ⟨_, rfl⟩
    · rw [if_neg hn]
      exact ⟨_, if_neg hd⟩
  obtain ⟨e, he⟩ := hl
  rw [walk]
  simp only [he]

theorem rmrf_total (hb : t.get env.base = some .dir) : ∃ t', rmrf env d.1 t = .ok t' := by
  by_cases hd : t.get (dirOf env d) = some .dir
  · obtain ⟨t', ht', _⟩ := rmrf_spec hd
    exact ⟨t', ht'⟩
  · exact ⟨t, walk_not_dir id hb hd⟩

theorem rmrf_within (hb : t.get env.base = some .dir) (h : rmrf env d.1 t = .ok t') :
    Within (dirOf env d) t t' := by
  by_cases hd : t.get (dirOf env d) = some .dir
  · obtain ⟨u, hu, hget⟩ := rmrf_spec hd
    rw [hu] at h
    cases h
    intro q hq
    rw [hget q, if_neg hq]
  · rw [rmrf, depth, walk_not_dir id hb hd] at h
    cases h
    exact Within.refl _ _

/-! ## clean_directory -/

/-- the loop of `clean_directory` -/
def cleanLoop (env : Env) (dataset : Entries) (dirname : Str) (t : Disk) : Except Exn Disk :=
  dataset.foldlM (fun t (x, _) => call (unlink (join (join env.benchdir dirname) x) t)) t

theorem cleanDirectory_ok {dataset : Entries} {dirname : Str} {clock : Clock} :
    cleanDirectory env dataset dirname clock t = .ok t' ↔
      cleanLoop env dataset dirname t = .ok t' ∧ clock.real ≠ 0 := by
  unfold cleanDirectory cleanLoop
  rw [bind_eq_ok]
  refine ⟨?_, ?_⟩
  · intro hex
    obtain ⟨u, hu, h⟩ := hex
    split at h
    · cases h
    · next hc =>
      cases h
      exact ⟨hu, hc⟩
  · intro hall
    obtain ⟨hu, hc⟩ := hall
    exact ⟨t', hu, if_neg hc⟩

theorem cleanLoop_within {dataset : Entries} (hin : ∀ e ∈ dataset, Local e.1)
    (h : cleanLoop env dataset d.1 t = .ok t') : Within (dirOf env d) t t' := by
  apply foldlM_inv (I := fun _ u => Within (dirOf env d) t u) (Within.refl _ _) _ h
  intro pre e post u u' hl hu hstep
  have hw := unlink_local (plain_curdir env d) (hin e (by rw [hl]; simp)) (call_ok.mp hstep)
  rw [pathOf_curdir] at hw
  exact hu.trans hw

end Compilebench
