import TestUnion.Compilebench.Exec
import TestUnion.Compilebench.OpsSpec

/-!
# compilebench: the directory hashes

* `Frame env d t t'`   `t` and `t'` differ inside the top-level directory `d` only;
* `Books`           the invariant of the hashes: a name is in one hash at most, is `kernel-n` for
                    some `n`, and exists in the working directory;
* `Change`          a step makes a directory, moves a name, deletes one, or leaves the hashes;
* `Came`            how a name has come into a hash;
* `Fresh`           the same for runs that begin in an empty working directory;
* `Books.step`, `Fresh.step`   every step keeps them;
* `created`, `deleted`   the names that the steps of a run create and delete;
* `Ledger`          the hashes hold the names that were created and not deleted.
-/

namespace Compilebench

open FileTree PosixPath PosixCalls Lts

variable {env : Env} {N : ℕ} {s s' : State} {t t' : Disk} {d d' : Name} {a : Act}

/-! ## what a step does to the tree -/

structure Frame (env : Env) (d : Name) (t t' : Disk) : Prop where
  outside : ∀ q, ¬ dirOf env d <:+ q → t'.get q = t.get q
  top : t.get (dirOf env d) ≠ none → t'.get (dirOf env d) = t.get (dirOf env d)

theorem Frame.of_within (h : Within (dirOf env d) t t') : Frame env d t t' :=
  ⟨fun q hq => h q fun hb => hq hb.1, fun _ => h _ not_below_self⟩

theorem Ran.frame {dataset : Entries} {fresh : Bool} (h : Ran env d dataset fresh t t') :
    Frame env d t t' := by
  refine ⟨?_, ?_⟩
  · intro q hq
    apply h.other q (fun hb => hq hb.1)
    rintro rfl
    exact hq (List.suffix_refl _)
  · intro hne
    rw [h.top, if_neg hne]

theorem dirOf_suffix (h : dirOf env d <:+ dirOf env d') : d = d' :=
  (List.cons.inj (h.eq_of_length rfl)).1

theorem not_dirOf_suffix_base : ¬ dirOf env d <:+ env.base := by
  intro h
  have hlen : env.base.length + 1 ≤ env.base.length := h.length_le
  omega

theorem Frame.base (h : Frame env d t t') : t'.get env.base = t.get env.base :=
  h.outside _ not_dirOf_suffix_base

/-- A top-level directory, or file, stays what it is. -/
theorem Frame.keeps (h : Frame env d t t') (hd : t.get (dirOf env d') ≠ none) :
    t'.get (dirOf env d') = t.get (dirOf env d') := by
  by_cases hdd : d = d'
  · subst hdd
    exact h.top hd
  · exact h.outside _ fun hs => hdd (dirOf_suffix hs)

theorem moves_inside {data : Data} {o : Op} {ch : Move} (hin : data.Inside)
    (h : ch ∈ o.moves data) : ∀ e ∈ ch.dataset, Local e.1 := by
  cases o <;> simp only [Op.moves, patchOp, compileOp, cleanOp, List.mem_cons, List.not_mem_nil,
    or_false] at h <;> rcases h with rfl | rfl <;> intro e he <;> apply hin e <;> simp [he]

theorem chosen_mem {op : List Move} {i : ℕ} {ch : Move} (h : (goodMoves s op)[i]? = some ch) :
    ch ∈ op :=
  List.mem_of_mem_filter (List.mem_of_getElem? h)

theorem work_frame (hb : t.get env.base = some .dir) {dataset : Entries}
    (hin : ∀ e ∈ dataset, Local e.1) {o : Op} (h : o.work env dataset d.1 t = .ok t') :
    Frame env d t t' := by
  rcases work_ok h with ⟨p, draw, clock, rfl, h'⟩ | ⟨p, clock, rfl, h'⟩ | ⟨p, clock, rfl, h'⟩
  · exact (runDirectory_ran hb hin (fun _ => rfl) h').frame
  · exact (runDirectory_ran hb hin (fun hx => hx) h').frame
  · exact Frame.of_within (cleanLoop_within hin (cleanDirectory_ok.mp h').1)

/-! ## the invariant -/

structure Books (env : Env) (N : ℕ) (s : State) : Prop where
  base : s.disk.get env.base = some .dir
  inside : s.data.Inside
  named : ∀ hash, ∀ x ∈ s.dirs hash, ∃ n, x = kernelName n ∧
    s.disk.get (dirOf env (kernelDir n)) ≠ none ∧ (s.initial < N → n < s.initial)
  unique : ∀ x hash hash', x ∈ s.dirs hash → x ∈ s.dirs hash' → hash = hash'

theorem Books.ne_nil (h : Books env N s) (hash : Hash) : [] ∉ s.dirs hash := by
  intro hmem
  obtain ⟨n, hn, _⟩ := h.named hash [] hmem
  exact kernelName_ne_nil n hn.symm

/-! ## what a step does to the hashes -/

/-- the names a step creates -/
def Act.creates (s : State) : Act → List Str
  | .initial _ => [kernelName s.initial]
  | .op (.create draws _) _ => (draws.getLast?.map kernelName).toList
  | _ => []

/-- the names a step deletes -/
def Act.deletes : Act → List Str
  | .op (.delete p _) ret => if ret = 0 then [] else [p.dir]
  | _ => []

/-- A step makes a directory, moves a name, deletes one, or leaves the hashes and the tree. -/
inductive Change (env : Env) (N : ℕ) (s s' : State) (a : Act) : Prop
  | made {n} (creates : a.creates s = [kernelName n]) (deletes : a.deletes = [])
      (new : s.disk.get (dirOf env (kernelDir n)) = none ∨ (s.initial < N ∧ n = s.initial))
      (next : s'.initial < N → n < s'.initial)
      (ran : Ran env (kernelDir n) s.data.unpatched false s.disk s'.disk)
      (dirs : s'.dirs = (s.set .unpatched (kernelName n)).dirs)
  | moved {o p ch n} (act : a = .op o 1) (pick : o.pick = some p) (dir : p.dir = kernelName n)
      (chosen : ch ∈ o.moves s.data) (mem : kernelName n ∈ s.dirs ch.source)
      (ran : o.work env ch.dataset (kernelName n) s.disk = .ok s'.disk)
      (frame : Frame env (kernelDir n) s.disk s'.disk)
      (dirs : s'.dirs = ((s.del ch.source (kernelName n)).set ch.dest (kernelName n)).dirs)
  | deleted {n hash} (creates : a.creates s = []) (deletes : a.deletes = [kernelName n])
      (mem : kernelName n ∈ s.dirs hash) (frame : Frame env (kernelDir n) s.disk s'.disk)
      (dirs : s'.dirs = (s.del hash (kernelName n)).dirs)
  | same (creates : a.creates s = []) (deletes : a.deletes = []) (disk : s'.disk = s.disk)
      (dirs : s'.dirs = s.dirs)

theorem move_quiet {o : Op} {ch : Move} {ret : ℕ} (h : ch ∈ o.moves s.data) :
    (Act.op o ret).creates s = [] ∧ (Act.op o ret).deletes = [] := by
  cases o with
  | patch p draw clock => exact ⟨rfl, rfl⟩
  | compile p clock => exact ⟨rfl, rfl⟩
  | clean p clock => exact ⟨rfl, rfl⟩
  | delete p clock => cases h
  | create draws clock => cases h
  | read p clock => cases h
  | stat p clock => cases h

theorem Ran.exists_top {dataset : Entries} {fresh : Bool} (h : Ran env d dataset fresh t t') :
    t'.get (dirOf env d) ≠ none := by
  rw [h.top]
  split
  · exact Option.some_ne_none _
  · next hne => exact hne

section
variable (hb : Books env N s)
include hb

theorem Books.ran {n : ℕ} {clock : Clock}
    (h : runDirectory env s.data.unpatched (kernelName n) false false clock s.disk = .ok t') :
    Ran env (kernelDir n) s.data.unpatched false s.disk t' :=
  runDirectory_ran (d := kernelDir n) hb.base (fun e he => hb.inside e (.inl he)) (fun hx => hx) h

theorem Books.get_none {n : ℕ}
    (h : «exists» s.disk (join env.benchdir (kernelName n)) = false) :
    s.disk.get (dirOf env (kernelDir n)) = none := by
  by_contra hne
  have := (exists_join env.plain hb.base (kernelDir n)).mpr hne
  rw [show join env.benchdir (kernelDir n).1 = join env.benchdir (kernelName n) from rfl, h] at this
  cases this

theorem Effect.change (h : Effect env N s s' a) : Change env N s s' a := by
  cases h with
  | initial lt ran dirs next =>
    exact .made rfl rfl (.inr ⟨lt, rfl⟩) (by omega) (hb.ran ran) dirs
  | @op o ret all next done =>
    cases done with
    | @move _ p ch pick chosen mem ran dirs =>
      obtain ⟨n, hn, _⟩ := hb.named _ _ mem
      rw [hn] at mem ran dirs
      have hch := chosen_mem chosen
      exact .moved rfl pick hn hch mem ran
        (work_frame (d := kernelDir n) hb.base (moves_inside hb.inside hch) ran) dirs
    | @delete p clock hash mem ran dirs =>
      obtain ⟨n, hn, _⟩ := hb.named _ _ mem
      rw [hn] at mem ran dirs
      exact .deleted rfl (congrArg (fun x => [x]) hn) mem
        (Frame.of_within (rmrf_within (d := kernelDir n) hb.base ran)) dirs
    | @create draws clock n last new ran dirs =>
      refine .made ?_ rfl (.inl (hb.get_none new)) (by omega) (hb.ran ran) dirs
      show (draws.getLast?.map kernelName).toList = _
      rw [last]
      rfl
    | visit kind disk dirs =>
      rcases kind with ⟨p, clock, rfl⟩ | ⟨p, clock, rfl⟩
      · exact .same rfl rfl disk dirs
      · exact .same rfl rfl disk dirs
    | idle picks same why =>
      refine .same ?_ ?_ (by rw [same]) (by rw [same])
      · cases o with
        | create draws clock => exact absurd rfl picks
        | _ => rfl
      · cases o <;> rfl

/-- The name that a step creates is not in the hashes. -/
theorem Books.not_mem {n : ℕ} (hnew : s.disk.get (dirOf env (kernelDir n)) = none ∨
    (s.initial < N ∧ n = s.initial)) (hash : Hash) : kernelName n ∉ s.dirs hash := by
  intro hmem
  obtain ⟨m, hm, hex, hlt⟩ := hb.named _ _ hmem
  have hnm := kernelName_injective hm
  subst hnm
  rcases hnew with hnone | ⟨hl, rfl⟩
  · exact hex hnone
  · exact absurd (hlt hl) (Nat.lt_irrefl _)

end

/-- The tree changes inside one top-level directory only. -/
theorem Change.frame (h : Change env N s s' a) : ∃ d, Frame env d s.disk s'.disk := by
  cases h with
  | made creates deletes new next ran dirs => exact ⟨_, ran.frame⟩
  | moved act pick dir chosen mem ran frame dirs => exact ⟨_, frame⟩
  | deleted creates deletes mem frame dirs => exact ⟨_, frame⟩
  | same creates deletes disk dirs =>
    rw [disk]
    exact ⟨kernelDir 0, Frame.of_within (Within.refl _ _)⟩

/-! ## where a name in a hash comes from -/

/-- the sizes of the files of a top-level directory, by their paths in it -/
def contents (env : Env) (t : Disk) (dir : Str) (p : Path) : Option ℕ :=
  t.size (p ++ pathOf (join env.benchdir dir))

theorem Frame.contents (h : Frame env d t t') (hd : d ≠ d') :
    contents env t' d'.1 = contents env t d'.1 := by
  funext p
  apply Tree.size_congr
  rw [pathOf_curdir]
  apply h.outside
  intro hs
  exact hd (child_unique hs (List.suffix_append p (dirOf env d')))

/-- How a name has come into a hash when the step is over. -/
inductive Came (env : Env) (N : ℕ) (s s' : State) : Act → Hash → Str → Prop
  | stay {a hash n} (mem : kernelName n ∈ s.dirs hash)
      (same : contents env s'.disk (kernelName n) = contents env s.disk (kernelName n)) :
    Came env N s s' a hash (kernelName n)
  | made {a n} (new : s.disk.get (dirOf env (kernelDir n)) = none ∨ (s.initial < N ∧ n = s.initial))
      (ran : Ran env (kernelDir n) s.data.unpatched false s.disk s'.disk) :
    Came env N s s' a .unpatched (kernelName n)
  | moved {o p ch n} (pick : o.pick = some p) (dir : p.dir = kernelName n)
      (chosen : ch ∈ o.moves s.data) (mem : kernelName n ∈ s.dirs ch.source)
      (ran : o.work env ch.dataset (kernelName n) s.disk = .ok s'.disk) :
    Came env N s s' (.op o 1) ch.dest (kernelName n)

section
variable (hb : Books env N s)
include hb

theorem Books.stay {n : ℕ} (hf : Frame env (kernelDir n) s.disk s'.disk) {x : Str} {hash : Hash}
    (hx : x ∈ s.dirs hash) (hne : x ≠ kernelName n) (a : Act) : Came env N s s' a hash x := by
  obtain ⟨m, rfl, _⟩ := hb.named _ _ hx
  have hdir : kernelDir n ≠ kernelDir m := fun h => hne (congrArg Subtype.val h).symm
  have hsame := hf.contents hdir
  exact .stay hx hsame

theorem Change.came (h : Change env N s s' a) {x : Str} {hash : Hash} (hx : x ∈ s'.dirs hash) :
    Came env N s s' a hash x := by
  cases h with
  | made creates deletes new next ran dirs =>
    rw [dirs, mem_set] at hx
    rcases hx with ⟨rfl, rfl⟩ | hx
    · exact .made new ran
    · apply hb.stay ran.frame hx
      intro hxn
      rw [hxn] at hx
      exact hb.not_mem new _ hx
  | moved act pick dir chosen mem ran frame dirs =>
    rw [dirs, mem_set, mem_del] at hx
    rcases hx with ⟨rfl, rfl⟩ | ⟨hx, hnot⟩
    · rw [act]
      exact .moved pick dir chosen mem ran
    · apply hb.stay frame hx
      intro hxn
      rw [hxn] at hx
      exact hnot ⟨hb.unique _ _ _ hx mem, hxn⟩
  | deleted creates deletes mem frame dirs =>
    rw [dirs, mem_del] at hx
    apply hb.stay frame hx.1
    intro hxn
    rw [hxn] at hx
    exact hx.2 ⟨hb.unique _ _ _ hx.1 mem, rfl⟩
  | same creates deletes disk dirs =>
    rw [dirs] at hx
    obtain ⟨m, rfl, _⟩ := hb.named _ _ hx
    exact .stay hx (by rw [disk])

/-- No name is in two hashes after a step. -/
theorem Change.unique (h : Change env N s s' a) {x : Str} {hash hash' : Hash}
    (hx : x ∈ s'.dirs hash) (hx' : x ∈ s'.dirs hash') : hash = hash' := by
  cases h with
  | made creates deletes new next ran dirs =>
    rw [dirs, mem_set] at hx hx'
    rcases hx with ⟨rfl, rfl⟩ | hx
    · rcases hx' with ⟨rfl, _⟩ | hx'
      · rfl
      · exact absurd hx' (hb.not_mem new _)
    · rcases hx' with ⟨_, h'⟩ | hx'
      · rw [h'] at hx
        exact absurd hx (hb.not_mem new _)
      · exact hb.unique _ _ _ hx hx'
  | moved act pick dir chosen mem ran frame dirs =>
    rw [dirs, mem_set, mem_del] at hx hx'
    rcases hx with ⟨rfl, rfl⟩ | ⟨hx, hn⟩
    · rcases hx' with ⟨rfl, _⟩ | ⟨hx', hn'⟩
      · rfl
      · exact absurd ⟨hb.unique _ _ _ hx' mem, rfl⟩ hn'
    · rcases hx' with ⟨_, h'⟩ | ⟨hx', _⟩
      · rw [h'] at hx hn
        exact absurd ⟨hb.unique _ _ _ hx mem, rfl⟩ hn
      · exact hb.unique _ _ _ hx hx'
  | deleted creates deletes mem frame dirs =>
    rw [dirs, mem_del] at hx hx'
    exact hb.unique _ _ _ hx.1 hx'.1
  | same creates deletes disk dirs =>
    rw [dirs] at hx hx'
    exact hb.unique _ _ _ hx hx'

/-- An existing name of the books stays one. -/
theorem Effect.keeps {n : ℕ} (h : Effect env N s s' a)
    (hn : s.disk.get (dirOf env (kernelDir n)) ≠ none ∧ (s.initial < N → n < s.initial)) :
    s'.disk.get (dirOf env (kernelDir n)) ≠ none ∧ (s'.initial < N → n < s'.initial) := by
  obtain ⟨d, hframe⟩ := (h.change hb).frame
  refine ⟨by rw [hframe.keeps hn.1]; exact hn.1, ?_⟩
  intro hl
  cases h with
  | initial lt ran dirs next =>
    have := hn.2 lt
    omega
  | op all next done => omega

theorem Books.step (h : Step env N s a s') : Books env N s' := by
  obtain ⟨heff, hdata⟩ := h.effect
  have hchange := heff.change hb
  obtain ⟨d, hframe⟩ := hchange.frame
  refine ⟨by rw [hframe.base]; exact hb.base, by rw [hdata]; exact hb.inside, ?_,
    fun x hash hash' => hchange.unique hb⟩
  have hold {n : ℕ} {hash : Hash} (hmem : kernelName n ∈ s.dirs hash) :
      s'.disk.get (dirOf env (kernelDir n)) ≠ none ∧ (s'.initial < N → n < s'.initial) := by
    obtain ⟨m, hm, hex⟩ := hb.named _ _ hmem
    rw [kernelName_injective hm]
    exact heff.keeps hb hex
  intro hash x hx
  cases hchange with
  | made creates deletes new next ran dirs =>
    rw [dirs, mem_set] at hx
    rcases hx with ⟨rfl, rfl⟩ | hx
    · exact ⟨_, rfl, ran.exists_top, next⟩
    · obtain ⟨m, rfl, _⟩ := hb.named _ _ hx
      exact ⟨m, rfl, hold hx⟩
  | moved act pick dir chosen mem ran frame dirs =>
    rw [dirs, mem_set, mem_del] at hx
    rcases hx with ⟨rfl, rfl⟩ | ⟨hx, _⟩
    · exact ⟨_, rfl, hold mem⟩
    · obtain ⟨m, rfl, _⟩ := hb.named _ _ hx
      exact ⟨m, rfl, hold hx⟩
  | deleted creates deletes mem frame dirs =>
    rw [dirs, mem_del] at hx
    obtain ⟨m, rfl, _⟩ := hb.named _ _ hx.1
    exact ⟨m, rfl, hold hx.1⟩
  | same creates deletes disk dirs =>
    rw [dirs] at hx
    obtain ⟨m, rfl, _⟩ := hb.named _ _ hx
    exact ⟨m, rfl, hold hx⟩

end

/-- The working directory exists and is empty. -/
structure EmptyDir (env : Env) (t : Disk) : Prop where
  dir : t.get env.base = some .dir
  empty : ∀ n, t.get (n :: env.base) = none

theorem sample_empty : EmptyDir sampleEnv sampleDisk := by
  refine ⟨by decide +kernel, ?_⟩
  intro n
  have hput : sampleDisk.get (n :: sampleEnv.base) = _ := Tree.get_put _ _ _
  rw [hput, if_neg]
  · apply Finmap.lookup_eq_none.mpr
    rw [Finmap.mem_singleton]
    exact List.cons_ne_nil _ _
  · intro h
    have hlen : sampleEnv.base.length + 1 = 1 := congrArg List.length h
    exact absurd hlen (by decide +kernel)

/-- The names of the coming rounds of the initial loop are free. -/
structure Fresh (env : Env) (N : ℕ) (s : State) : Prop extends Books env N s where
  free : s.initial < N → ∀ n, s.initial ≤ n → s.disk.get (dirOf env (kernelDir n)) = none

/-- The directory of a new name does not exist. -/
theorem Fresh.get_new (hf : Fresh env N s) {n : ℕ}
    (new : s.disk.get (dirOf env (kernelDir n)) = none ∨ (s.initial < N ∧ n = s.initial)) :
    s.disk.get (dirOf env (kernelDir n)) = none := by
  rcases new with hnone | ⟨hlt, rfl⟩
  · exact hnone
  · exact hf.free hlt _ (Nat.le_refl _)

theorem Fresh.step (hf : Fresh env N s) (h : Step env N s a s') : Fresh env N s' := by
  refine ⟨hf.toBooks.step h, ?_⟩
  intro hlt n hn
  obtain ⟨heff, _⟩ := h.effect
  cases heff with
  | initial lt ran dirs next =>
    rw [(hf.ran ran).frame.outside, hf.free lt n (by omega)]
    intro hs
    have := kernelName_injective (congrArg Subtype.val (dirOf_suffix hs))
    omega
  | op all next done => omega

theorem Start.books {q : Quadruple} (hb : t.get env.base = some .dir) (h : Start env q t s) :
    Books env N s := by
  obtain ⟨clocks, hinit⟩ := h.init
  obtain ⟨hdisk, hinside⟩ := init_spec hb hinit
  refine ⟨by rw [hdisk]; exact hb, hinside, ?_, ?_⟩
  · intro hash x hx
    rw [h.dirs] at hx
    cases hx
  · intro x hash hash' hx
    rw [h.dirs] at hx
    cases hx

theorem Start.fresh {q : Quadruple} (he : EmptyDir env t) (h : Start env q t s) :
    Fresh env N s := by
  refine ⟨h.books he.dir, ?_⟩
  intro _ n _
  obtain ⟨clocks, hinit⟩ := h.init
  rw [(init_spec he.dir hinit).1]
  exact he.empty (kernelDir n)

/-! ## the ledger -/

def created (tr : List (State × Act × State)) : List Str := tr.flatMap fun x => x.2.1.creates x.1

def deleted (tr : List (State × Act × State)) : List Str := tr.flatMap fun x => x.2.1.deletes

theorem created_concat (tr : List (State × Act × State)) :
    created (tr ++ [(s, a, s')]) = created tr ++ a.creates s := by
  unfold created
  rw [List.flatMap_append, List.flatMap_singleton]

theorem deleted_concat (tr : List (State × Act × State)) :
    deleted (tr ++ [(s, a, s')]) = deleted tr ++ a.deletes := by
  unfold deleted
  rw [List.flatMap_append, List.flatMap_singleton]

theorem exists_mem_set {hash : Hash} {dir x : Str} :
    (∃ hash', x ∈ (s.set hash dir).dirs hash') ↔ x = dir ∨ ∃ hash', x ∈ s.dirs hash' := by
  refine ⟨?_, ?_⟩
  · intro hex
    obtain ⟨hash', h⟩ := hex
    rcases mem_set.mp h with ⟨_, h⟩ | h
    · exact .inl h
    · exact .inr ⟨hash', h⟩
  · rintro (h | ⟨hash', h⟩)
    · exact ⟨hash, mem_set.mpr (.inl ⟨rfl, h⟩)⟩
    · exact ⟨hash', mem_set.mpr (.inr h)⟩

/-- A name that moves stays among the names. -/
theorem exists_mem_move {source dest : Hash} {dir x : Str} (hmem : dir ∈ s.dirs source) :
    (∃ hash, x ∈ ((s.del source dir).set dest dir).dirs hash) ↔ ∃ hash, x ∈ s.dirs hash := by
  rw [exists_mem_set]
  refine ⟨?_, ?_⟩
  · rintro (rfl | ⟨hash, h⟩)
    · exact ⟨source, hmem⟩
    · exact ⟨hash, (mem_del.mp h).1⟩
  · intro hex
    obtain ⟨hash, h⟩ := hex
    by_cases hx : x = dir
    · exact .inl hx
    · exact .inr ⟨hash, mem_del.mpr ⟨h, fun hn => hx hn.2⟩⟩

/-- The names of the hashes after a step. -/
theorem Change.live (hb : Books env N s) (h : Change env N s s' a) (x : Str) :
    (∃ hash, x ∈ s'.dirs hash) ↔
      ((∃ hash, x ∈ s.dirs hash) ∨ x ∈ a.creates s) ∧ x ∉ a.deletes := by
  cases h with
  | made creates deletes new next ran dirs =>
    rw [dirs, exists_mem_set, creates, deletes, List.mem_singleton]
    simp [or_comm]
  | @moved o p ch n act pick dir chosen mem ran frame dirs =>
    have hquiet : (Act.op o 1).creates s = [] ∧ (Act.op o 1).deletes = [] := move_quiet chosen
    rw [dirs, exists_mem_move mem, act, hquiet.1, hquiet.2]
    simp
  | @deleted n hash creates deletes mem frame dirs =>
    rw [dirs, creates, deletes, List.mem_singleton]
    refine ⟨?_, ?_⟩
    · intro hx
      obtain ⟨hash', hx⟩ := hx
      obtain ⟨hx, hnot⟩ := mem_del.mp hx
      refine ⟨.inl ⟨hash', hx⟩, ?_⟩
      intro hxn
      rw [hxn] at hx
      exact hnot ⟨hb.unique _ _ _ hx mem, hxn⟩
    · intro hx
      obtain ⟨⟨hash', hx⟩ | hx, hne⟩ := hx
      · exact ⟨hash', mem_del.mpr ⟨hx, fun h => hne h.2⟩⟩
      · cases hx
  | same creates deletes disk dirs =>
    rw [dirs, creates, deletes]
    simp

/-- A name that a step creates: it is new, and exists afterwards. -/
theorem Change.creates_new (h : Change env N s s' a) {x : Str}
    (hx : x ∈ a.creates s) : ∃ n, x = kernelName n ∧
      (s.disk.get (dirOf env (kernelDir n)) = none ∨ (s.initial < N ∧ n = s.initial)) ∧
      s'.disk.get (dirOf env (kernelDir n)) ≠ none ∧ (s'.initial < N → n < s'.initial) := by
  cases h with
  | @made n creates deletes new next ran dirs =>
    rw [creates] at hx
    exact ⟨n, List.mem_singleton.mp hx, new, ran.exists_top, next⟩
  | moved act pick dir chosen mem ran frame dirs =>
    rw [act, (move_quiet (s := s) chosen).1] at hx
    cases hx
  | deleted creates deletes mem frame dirs =>
    rw [creates] at hx
    cases hx
  | same creates deletes disk dirs =>
    rw [creates] at hx
    cases hx

/-- What is deleted was in a hash. -/
theorem Change.deletes_live (h : Change env N s s' a) {x : Str} (hx : x ∈ a.deletes) :
    ∃ hash, x ∈ s.dirs hash := by
  cases h with
  | made creates deletes new next ran dirs =>
    rw [deletes] at hx
    cases hx
  | moved act pick dir chosen mem ran frame dirs =>
    rw [act, (move_quiet (s := s) chosen).2] at hx
    cases hx
  | deleted creates deletes mem frame dirs =>
    rw [deletes, List.mem_singleton] at hx
    rw [hx]
    exact ⟨_, mem⟩
  | same creates deletes disk dirs =>
    rw [deletes] at hx
    cases hx

structure Ledger (env : Env) (N : ℕ) (tr : List (State × Act × State)) (s : State) : Prop where
  books : Books env N s
  live : ∀ x, (∃ hash, x ∈ s.dirs hash) ↔ x ∈ created tr ∧ x ∉ deleted tr
  known : ∀ x ∈ created tr, ∃ n, x = kernelName n ∧
    s.disk.get (dirOf env (kernelDir n)) ≠ none ∧ (s.initial < N → n < s.initial)
  once : ∀ x ∈ deleted tr, x ∈ created tr

theorem Ledger.step {tr : List (State × Act × State)} (hl : Ledger env N tr s)
    (h : Step env N s a s') : Ledger env N (tr ++ [(s, a, s')]) s' := by
  obtain ⟨heff, _⟩ := h.effect
  have hchange := heff.change hl.books
  have hnew {x : Str} (hx : x ∈ a.creates s) : x ∉ created tr := by
    intro hc
    obtain ⟨n, rfl, hfresh, _⟩ := hchange.creates_new hx
    obtain ⟨m, hm, hex, hlt⟩ := hl.known _ hc
    have hnm := kernelName_injective hm
    subst hnm
    rcases hfresh with hnone | ⟨hi, rfl⟩
    · exact hex hnone
    · exact absurd (hlt hi) (Nat.lt_irrefl _)
  refine ⟨hl.books.step h, ?_, ?_, ?_⟩
  · intro x
    rw [hchange.live hl.books, hl.live, created_concat, deleted_concat, List.mem_append,
      List.mem_append]
    refine ⟨?_, ?_⟩
    · rintro ⟨⟨hc, hd⟩ | hc, hdel⟩
      · exact ⟨.inl hc, not_or.mpr ⟨hd, hdel⟩⟩
      · exact ⟨.inr hc, not_or.mpr ⟨fun hd => hnew hc (hl.once x hd), hdel⟩⟩
    · intro hall
      obtain ⟨hc, hnd⟩ := hall
      obtain ⟨hd, hdel⟩ := not_or.mp hnd
      exact ⟨hc.imp (fun hc => ⟨hc, hd⟩) id, hdel⟩
  · intro x hx
    rw [created_concat, List.mem_append] at hx
    rcases hx with hx | hx
    · obtain ⟨n, hn, hex⟩ := hl.known x hx
      exact ⟨n, hn, heff.keeps hl.books hex⟩
    · obtain ⟨n, hn, _, hex⟩ := hchange.creates_new hx
      exact ⟨n, hn, hex⟩
  · intro x hx
    rw [deleted_concat, List.mem_append] at hx
    rw [created_concat, List.mem_append]
    rcases hx with hx | hx
    · exact .inl (hl.once x hx)
    · exact .inl ((hl.live x).mp (hchange.deletes_live hx)).1

theorem Ledger.run {s₀ : State} (h₀ : Ledger env N [] s₀) {tr : List (State × Act × State)}
    (hr : Run (Step env N) s₀ tr s) : Ledger env N tr s := by
  induction hr with
  | nil => exact h₀
  | snoc _ hst ih => exact ih.step hst

/-- One name goes from one hash to another. -/
def MovesOne (s s' : State) : Prop :=
  ∃ name source dest, source ≠ dest ∧ name ∈ s.dirs source ∧ name ∉ s.dirs dest ∧
    s'.dirs = ((s.del source name).set dest name).dirs

/-- What the operations that create and delete nothing do to the hashes. -/
def Tidy (s : State) (a : Act) (s' : State) : Prop :=
  match a with
  | .op (.patch _ _ _) ret => (ret = 0 ∧ s' = s) ∨ (ret = 1 ∧ MovesOne s s')
  | .op (.compile _ _) ret => (ret = 0 ∧ s' = s) ∨ (ret = 1 ∧ MovesOne s s')
  | .op (.clean _ _) ret => (ret = 0 ∧ s' = s) ∨ (ret = 1 ∧ MovesOne s s')
  | .op (.read _ _) _ => s'.dirs = s.dirs
  | .op (.stat _ _) _ => s'.dirs = s.dirs
  | _ => True

theorem Effect.tidy (hb : Books env N s) (h : Effect env N s s' a) : Tidy s a s' := by
  cases h with
  | initial lt ran dirs next => trivial
  | @op o ret all next done =>
    cases done with
    | @move _ p ch pick chosen mem ran dirs =>
      have hch := chosen_mem chosen
      have hone : MovesOne s s' := by
        refine ⟨p.dir, ch.source, ch.dest, moves_ne hch, mem, ?_, dirs⟩
        intro hdest
        exact moves_ne hch (hb.unique _ _ _ mem hdest)
      cases o with
      | patch p draw clock => exact .inr ⟨rfl, hone⟩
      | compile p clock => exact .inr ⟨rfl, hone⟩
      | clean p clock => exact .inr ⟨rfl, hone⟩
      | delete p clock => trivial
      | create draws clock => trivial
      | read p clock => cases hch
      | stat p clock => cases hch
    | delete mem ran dirs => trivial
    | create last new ran dirs => trivial
    | visit kind disk dirs => rcases kind with ⟨p, clock, rfl⟩ | ⟨p, clock, rfl⟩ <;> exact dirs
    | @idle _ picks same why =>
      cases o with
      | patch p draw clock => exact .inl ⟨rfl, same⟩
      | compile p clock => exact .inl ⟨rfl, same⟩
      | clean p clock => exact .inl ⟨rfl, same⟩
      | delete p clock => trivial
      | create draws clock => trivial
      | read p clock =>
        show s'.dirs = s.dirs
        rw [same]
      | stat p clock =>
        show s'.dirs = s.dirs
        rw [same]

/-- No run loses or duplicates a tree. -/
theorem trees_kept {q : Quadruple} {s₀ : State} {tr : List (State × Act × State)}
    (hb : t.get env.base = some .dir) (hs : Start env q t s₀) (hr : Run (Step env N) s₀ tr s) :
    (∀ hash hash', hash ≠ hash' → Disjoint (s.dirs hash) (s.dirs hash')) ∧
      (∀ x, (∃ hash, x ∈ s.dirs hash) ↔ x ∈ created tr ∧ x ∉ deleted tr) ∧
      ∀ e ∈ tr, Tidy e.1 e.2.1 e.2.2 := by
  have h₀ : Ledger env N [] s₀ := by
    refine ⟨hs.books hb, ?_, ?_, ?_⟩
    · intro x
      simp [hs.dirs, created]
    · intro x hx
      cases hx
    · intro x hx
      cases hx
  have hl := h₀.run hr
  refine ⟨?_, hl.live, ?_⟩
  · intro hash hash' hne
    rw [Finset.disjoint_left]
    intro x hx hx'
    exact hne (hl.books.unique _ _ _ hx hx')
  · intro e he
    obtain ⟨hbooks, hstep, _⟩ := hr.steps_inv (I := Books env N)
      (fun u a u' hu hst => hu.step hst) h₀.books e he
    exact hstep.effect.1.tidy hbooks

/-- one tree that is patched, and one that is created and deleted -/
theorem trees_kept_patched :
    ∃ s₀ tr s, Start sampleEnv sampleData sampleDisk s₀ ∧
      Run (Step sampleEnv 1) s₀ tr s ∧ kernelName 0 ∈ s.dirs .patched ∧
      (∀ hash hash', hash ≠ hash' → Disjoint (s.dirs hash) (s.dirs hash')) ∧
      (∀ x, (∃ hash, x ∈ s.dirs hash) ↔ x ∈ created tr ∧ x ∉ deleted tr) ∧
      ∀ e ∈ tr, Tidy e.1 e.2.1 e.2.2 := by
  obtain ⟨s₀, tr, s, hs, hr, hc⟩ := sample_run 1
    [.initial ⟨0, 0, 1⟩, .op (.patch ⟨0, kernelName 0⟩ 0 ⟨0, 0, 1⟩) 1,
      .op (.create [100] ⟨0, 0, 1⟩) 1, .op (.delete ⟨1, kernelName 100⟩ ⟨0, 0, 1⟩) 1]
    (fun s => decide (kernelName 0 ∈ s.dirs .patched)) (by decide +kernel)
  exact ⟨s₀, tr, s, hs, hr, of_decide_eq_true hc, trees_kept sample_empty.dir hs hr⟩

end Compilebench
