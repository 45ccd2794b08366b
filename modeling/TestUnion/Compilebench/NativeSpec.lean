import TestUnion.Compilebench.WriteSpec

/-!
# compilebench: `native_order` and `random_order`

* `Lists l d`       the list `l` holds every pair of the dict `d` once;
* `collect_ok`      what a loop has collected that looks every name up in a dict;
* `nativeOrder_disk`    `native_order` leaves the tree as it was;
* `nativeOrder_lists`   for normal names it lists the dict in some order;
* `randomOrder_lists`   so does `random_order`.
-/

namespace Compilebench

open FileTree PosixPath PosixCalls ExceptLoop

variable {env : Env} {t t' : Disk} {d : Name} {dhash : Dataset} {l : Entries}

structure Lists (l : Entries) (d : Dataset) : Prop where
  nodup : (l.map Prod.fst).Nodup
  mem : ∀ x sz, (x, sz) ∈ l ↔ d.lookup x = some sz

def Agrees (l : Entries) (d : Dataset) : Prop := ∀ e ∈ l, d.lookup e.1 = some e.2

theorem Lists.agrees {d : Dataset} (h : Lists l d) : Agrees l d := fun e he => (h.mem e.1 e.2).mp he

/-! ## names with a number -/

theorem isName_number {stem : Str} (hs : '/' ∉ stem) (hlen : 2 < stem.length) (n : ℕ) :
    IsName (stem ++ Nat.toDigits 10 n) := by
  have hlong : 2 < (stem ++ Nat.toDigits 10 n).length := by
    rw [List.length_append]
    omega
  refine ⟨?_, ?_, ?_, ?_⟩
  · intro h
    rw [h] at hlong
    exact absurd hlong (by decide)
  · intro h
    rw [h] at hlong
    exact absurd hlong (by decide)
  · intro h
    rw [h] at hlong
    exact absurd hlong (by decide)
  · intro h
    rcases List.mem_append.mp h with h | h
    · exact hs h
    · have := Nat.isDigit_of_mem_toDigits (by decide) (by decide) h
      exact absurd this (by decide)

theorem number_injective {stem : Str} {n m : ℕ}
    (h : stem ++ Nat.toDigits 10 n = stem ++ Nat.toDigits 10 m) : n = m := by
  have hd := congrArg (fun l => Nat.ofDigitChars 10 l 0) (List.append_cancel_left h)
  simpa using hd

def nativeDir (i : ℕ) : Name := ⟨nativeName i, isName_number (by decide) (by decide) i⟩

theorem freeNative_ok {fuel i : ℕ} {name : Str} (h : freeNative env t fuel i = .ok name) :
    ∃ j, name = (nativeDir j).1 ∧ «exists» t (join env.benchdir (nativeDir j).1) = false := by
  induction fuel generalizing i with
  | zero => cases h
  | succ fuel ih =>
    unfold freeNative at h
    split at h
    · exact ih h
    · next hx =>
      cases h
      exact ⟨i, rfl, Bool.eq_false_iff.mpr hx⟩

/-! ## collecting the sizes -/

/-- one round of a loop that collects the pair of `g a` -/
def collect {α : Type} (dhash : Dataset) (g : α → Str) (ret : Entries) (a : α) :
    Except Exn Entries := do
  let sz ← getItem dhash (g a)
  return ret ++ [(g a, sz)]

theorem collect_ok {α : Type} {g : α → Str} {m : List α}
    (h : m.foldlM (collect dhash g) [] = .ok l) :
    l.map Prod.fst = m.map g ∧ Agrees l dhash := by
  apply foldlM_inv (I := fun pre (l : Entries) => l.map Prod.fst = pre.map g ∧ Agrees l dhash)
    ⟨rfl, fun e he => by cases he⟩ _ h
  rintro pre a post l l' - ⟨hfst, hagree⟩ hstep
  unfold collect getItem at hstep
  cases hsz : dhash.lookup (g a) with
  | none =>
    rw [hsz] at hstep
    cases hstep
  | some sz =>
    rw [hsz] at hstep
    cases hstep
    refine ⟨?_, ?_⟩
    · rw [List.map_append, hfst, List.map_append]
      rfl
    · intro e he
      rcases List.mem_append.mp he with he | he
      · exact hagree e he
      · rw [List.mem_singleton.mp he]
        exact hsz

theorem withSizes_lists {keys : List Str} (hn : keys.Nodup) (hk : ∀ x, x ∈ keys ↔ x ∈ dhash)
    (h : withSizes dhash keys = .ok l) : Lists l dhash := by
  obtain ⟨hfst, hagree⟩ := collect_ok (g := id) h
  rw [List.map_id] at hfst
  refine ⟨by rw [hfst]; exact hn, ?_⟩
  intro x sz
  refine ⟨?_, ?_⟩
  · exact hagree (x, sz)
  · intro hx
    have hmem : x ∈ l.map Prod.fst := by
      rw [hfst, hk]
      exact Finmap.mem_of_lookup_eq_some hx
    obtain ⟨e, he, rfl⟩ := List.mem_map.mp hmem
    have hsz := hagree e he
    rw [hx] at hsz
    rw [Option.some.inj hsz]
    exact he

theorem randomOrder_lists (h : randomOrder env dhash = .ok l) : Lists l dhash := by
  have hp := env.shuffle_perm (env.keys dhash)
  apply withSizes_lists (hp.nodup_iff.mpr (env.keys_nodup dhash)) _ h
  intro x
  rw [hp.mem_iff, env.mem_keys]

/-! ## native_order -/

/-- the name under which the walk of `top` finds the file at `r` -/
def foundName (top : Str) (r : Path) : Str := (extend top r).drop (top.length + 1)

theorem foundName_eq {top : Str} (htop : top ≠ []) (hl : top.getLast? ≠ some '/') {r : Path}
    (hr : r ≠ []) : Normal (foundName top r) ∧ pathOf (foundName top r) = r := by
  obtain ⟨n, r', rfl⟩ := List.exists_cons_of_ne_nil hr
  obtain ⟨x, hx, hnorm, hpath, _⟩ := extend_eq htop hl n r'
  have hfound : foundName top (n :: r') = x := by
    unfold foundName
    rw [hx, List.append_cons, List.drop_left' (by simp)]
  rw [hfound]
  exact ⟨hnorm, hpath⟩

theorem curdir_getLast (env : Env) (d : Name) : (join env.benchdir d.1).getLast? ≠ some '/' := by
  rcases join_slash (local_name d).relative env.plain.1 with h | ⟨c, _, h⟩
  · rw [h]
    exact getLast_slash_name _ d
  · rw [h]
    exact getLast_slash_name _ d

/-- the walk of `native_order` -/
def nativeWalk (env : Env) (dhash : Dataset) (top : Str) (t : Disk) : Except Exn Entries :=
  walk env.ls (fun _ => t) .endless true (fun root _ files native =>
    files.foldlM (fun native name => do
      let str := (join root name.1).drop (top.length + 1)
      let sz ← getItem dhash str
      return native ++ [(str, sz)]) native) (depth t) top []

/-- it is one loop over all files -/
theorem nativeWalk_eq {top : Str} (hplain : Plain top) (hd : t.get (pathOf top) = some .dir) :
    nativeWalk env dhash top t
      = (allFiles env.ls t (depth t) (pathOf top)).foldlM (collect dhash (foundName top)) [] := by
  unfold nativeWalk allFiles
  rw [walk_topdown (t := t) (fun _ => rfl) _ hplain hd (below_lt_depth t _), foldlM_flatMap]
  apply foldlM_congr
  intro r _ s
  rw [List.foldlM_map]
  rfl

/-- the steps of a call that returned -/
theorem nativeOrder_ok {clock : Clock} (h : nativeOrder env dhash clock t = .ok (l, t')) :
    ∃ (j : ℕ) (tmplist : Entries) (u v : Disk),
      «exists» t (join env.benchdir (nativeDir j).1) = false ∧
      withSizes dhash (env.sort pathcomp (env.keys dhash)) = .ok tmplist ∧
      runDirectory env tmplist (nativeDir j).1 false false clock t = .ok u ∧
      nativeWalk env dhash (join env.benchdir (nativeDir j).1) u = .ok l ∧
      rmrf env (nativeDir j).1 u = .ok v ∧ rmdir (join env.benchdir (nativeDir j).1) v = .ok t' := by
  unfold nativeOrder at h
  simp only [bind_eq_ok] at h
  obtain ⟨name, hname, tmplist, htmp, u, hu, l', hl', v, hv, w, hw, h⟩ := h
  cases h
  obtain ⟨j, rfl, hfree⟩ := freeNative_ok hname
  exact ⟨j, tmplist, u, v, hfree, htmp, hu, hl', hv, call_ok.mp hw⟩

theorem sorted_lists {tmplist : Entries}
    (h : withSizes dhash (env.sort pathcomp (env.keys dhash)) = .ok tmplist) :
    Lists tmplist dhash := by
  have hp := env.sort_perm pathcomp (env.keys dhash)
  apply withSizes_lists (hp.nodup_iff.mpr (env.keys_nodup dhash)) _ h
  intro x
  rw [hp.mem_iff, env.mem_keys]

/-- The directory is removed with all that it holds. -/
theorem remove_total (hd : t.get (dirOf env d) = some .dir) :
    ∃ u v, rmrf env d.1 t = .ok u ∧ rmdir (join env.benchdir d.1) u = .ok v ∧
      ∀ q, v.get q = if q = dirOf env d ∨ Below (dirOf env d) q then none else t.get q := by
  obtain ⟨u, hu, hget⟩ := rmrf_spec hd
  have hud : u.get (dirOf env d) = some .dir := by
    rw [hget, if_neg not_below_self]
    exact hd
  obtain ⟨v, hv, hvget⟩ := rmdir_join (n := d) env.plain hud fun m => by
    show u.get (m :: dirOf env d) = none
    rw [hget, if_pos below_cons]
  refine ⟨u, v, hu, hv, ?_⟩
  intro q
  rw [hvget q]
  show (if q = dirOf env d then none else u.get q) = _
  by_cases hq : q = dirOf env d
  · rw [if_pos hq, if_pos (.inl hq)]
  · rw [if_neg hq, hget q]
    simp only [hq, false_or]

section
variable (hb : t.get env.base = some .dir)
include hb

/-- The directory that was chosen is not there. -/
theorem get_of_free {j : ℕ} (hfree : «exists» t (join env.benchdir (nativeDir j).1) = false) :
    t.get (dirOf env (nativeDir j)) = none := by
  by_contra hne
  rw [(exists_join env.plain hb (nativeDir j)).mpr hne] at hfree
  cases hfree

theorem nativeOrder_disk (hin : ∀ x ∈ dhash, Local x) {clock : Clock}
    (h : nativeOrder env dhash clock t = .ok (l, t')) : t' = t ∧ Agrees l dhash := by
  obtain ⟨j, tmplist, u, v, hfree, htmp, hu, hl, hv, hw⟩ := nativeOrder_ok h
  have hnone := get_of_free hb hfree
  have hagree := (sorted_lists htmp).agrees
  have hran := runDirectory_ran hb (fun e he =>
    hin e.1 (Finmap.mem_of_lookup_eq_some (hagree e he))) (fun hx => hx) hu
  have hud : u.get (dirOf env (nativeDir j)) = some .dir := by
    rw [hran.top, if_pos hnone]
  obtain ⟨v', w', hv', hw', hget⟩ := remove_total hud
  rw [hv] at hv'
  cases hv'
  rw [hw] at hw'
  cases hw'
  refine ⟨?_, ?_⟩
  · apply Tree.ext_get
    intro q
    rw [hget q]
    split
    · next hq =>
      have hsuf : dirOf env (nativeDir j) <:+ q := by
        rcases hq with rfl | hbel
        · exact List.suffix_refl _
        · exact hbel.1
      by_contra hne
      exact Tree.get_ne_none_of_suffix (Ne.symm hne) hsuf hnone
    · next hq => exact hran.other q (fun h => hq (.inr h)) (fun h => hq (.inl h))
  · rw [nativeWalk_eq (plain_curdir env (nativeDir j)) (by rw [pathOf_curdir]; exact hud)] at hl
    exact (collect_ok hl).2

theorem nativeOrder_lists (hn : ∀ x ∈ dhash, Normal x) {clock : Clock}
    (h : nativeOrder env dhash clock t = .ok (l, t')) : Lists l dhash := by
  obtain ⟨j, tmplist, u, v, hfree, htmp, hu, hl, hv, hw⟩ := nativeOrder_ok h
  have hnone := get_of_free hb hfree
  have htl := sorted_lists htmp
  have hnorm : NormalEntries tmplist :=
    ⟨fun e he => hn e.1 (Finmap.mem_of_lookup_eq_some (htl.agrees e he)), htl.nodup⟩
  have hran := runDirectory_ran hb hnorm.local (fun hx => hx) hu
  have hplain := plain_curdir env (nativeDir j)
  have hpath := pathOf_curdir env (nativeDir j)
  have hud : u.get (pathOf (join env.benchdir (nativeDir j).1)) = some .dir := by
    rw [hpath, hran.top, if_pos hnone]
  have hname {r : Path} (hr : r ≠ []) := foundName_eq hplain.1 (curdir_getLast env (nativeDir j)) hr
  have hmem {r : Path} := mem_allFiles (L := env.ls) (depth u) hud (below_lt_depth u _) r
  rw [nativeWalk_eq hplain hud] at hl
  obtain ⟨hfst, hagree⟩ := collect_ok hl
  refine ⟨?_, ?_⟩
  · rw [hfst]
    apply (nodup_allFiles (L := env.ls) (t := u) (depth u) _).map_on
    intro r hr r' hr' heq
    rw [← (hname (hmem.mp hr).1).2, ← (hname (hmem.mp hr').1).2, heq]
  · intro x sz
    refine ⟨?_, ?_⟩
    · exact hagree (x, sz)
    · intro hx
      have hxn : Normal x := hn x (Finmap.mem_of_lookup_eq_some hx)
      -- the file that was written for `x` is found under the name `x`
      have hsize : u.size (pathOf x ++ dirOf env (nativeDir j)) =
          some (newSize false (t.size (pathOf x ++ dirOf env (nativeDir j))) sz) := by
        rw [hran.size]
        exact written_of_mem hnorm ((htl.mem x sz).mpr hx)
      have hfile := hmem.mpr ⟨hxn.pathOf_ne_nil, _, by
        rw [hpath]
        exact Tree.size_eq_some.mp hsize⟩
      obtain ⟨h1, h2⟩ := hname hxn.pathOf_ne_nil
      have hxm : x ∈ l.map Prod.fst := by
        rw [hfst]
        exact List.mem_map.mpr ⟨_, hfile, h1.eq_of_pathOf hxn h2⟩
      obtain ⟨e, he, rfl⟩ := List.mem_map.mp hxm
      have hsz := hagree e he
      rw [hx] at hsz
      rw [Option.some.inj hsz]
      exact he

end

end Compilebench
