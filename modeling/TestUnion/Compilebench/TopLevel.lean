import TestUnion.Compilebench.Books

/-!
# compilebench: the directories that are left behind

* `kernelDirs env t`   the names of the top-level directories `kernel-*`;
* `Agree`              they are the names in the hashes;
* `agree_iff`          this holds all along a run exactly when the run deletes no directory.

`rmrf` empties a directory and leaves it, so a deleted name stays on disk.
-/

namespace Compilebench

open FileTree PosixPath PosixCalls Lts

variable {env : Env} {N : ℕ} {s s' : State} {t t' : Disk} {d : Name} {a : Act}

def kernelDirs (env : Env) (t : Disk) : Set Str :=
  {x | ∃ n : Name, n.1 = x ∧ "kernel-".toList <+: x ∧ t.get (dirOf env n) = some .dir}

/-- the names in the four hashes -/
def State.names (s : State) : Set Str := {x | ∃ hash, x ∈ s.dirs hash}

def Agree (env : Env) (s : State) : Prop := kernelDirs env s.disk = s.names

theorem Frame.kernelDirs (h : Frame env d t t') (hd : t.get (dirOf env d) ≠ none) :
    kernelDirs env t' = kernelDirs env t := by
  have hget (n : Name) : t'.get (dirOf env n) = t.get (dirOf env n) := by
    by_cases hn : d = n
    · rw [← hn]
      exact h.top hd
    · exact h.outside _ fun hs => hn (dirOf_suffix hs)
  unfold Compilebench.kernelDirs
  simp only [hget]

/-- A new directory is one more. -/
theorem Ran.kernelDirs {n : ℕ} {dataset : Entries} {fresh : Bool}
    (h : Ran env (kernelDir n) dataset fresh t t') (hn : t.get (dirOf env (kernelDir n)) = none) :
    kernelDirs env t' = insert (kernelName n) (kernelDirs env t) := by
  have htop : t'.get (dirOf env (kernelDir n)) = some .dir := by
    rw [h.top, if_pos hn]
  ext x
  refine ⟨?_, ?_⟩
  · intro hex
    obtain ⟨m, rfl, hpre, hm⟩ := hex
    by_cases hmn : kernelDir n = m
    · exact .inl (congrArg Subtype.val hmn).symm
    · refine .inr ⟨m, rfl, hpre, ?_⟩
      rw [← h.frame.outside _ fun hs => hmn (dirOf_suffix hs)]
      exact hm
  · rintro (rfl | ⟨m, rfl, hpre, hm⟩)
    · exact ⟨kernelDir n, rfl, List.prefix_append _ _, htop⟩
    · refine ⟨m, rfl, hpre, ?_⟩
      rw [h.frame.keeps (by rw [hm]; exact Option.some_ne_none _)]
      exact hm

/-- The step deletes nothing: it is no `delete_one_dir`, or there is no directory to choose. -/
def Undeleted (s : State) (a : Act) : Prop :=
  ∀ p clock ret, a = .op (.delete p clock) ret → ∀ hash, s.dirs hash = ∅

theorem names_set {hash : Hash} {dir : Str} : (s.set hash dir).names = insert dir s.names := by
  ext x
  exact exists_mem_set

theorem names_eq (h : s'.dirs = s.dirs) : s'.names = s.names := by
  unfold State.names
  rw [h]

theorem names_move {source dest : Hash} {dir : Str} (hmem : dir ∈ s.dirs source) :
    ((s.del source dir).set dest dir).names = s.names := by
  ext x
  exact exists_mem_move hmem

/-- A step that returns has deleted nothing iff it is no deletion of a directory. -/
theorem Effect.undeleted (hb : Books env N s) (h : Effect env N s s' a) :
    Undeleted s a ↔ a.deletes = [] := by
  cases h with
  | initial lt ran dirs next =>
    refine iff_of_true ?_ rfl
    intro p clock ret ha
    cases ha
  | @op o ret all next done =>
    cases done with
    | move pick chosen mem ran dirs =>
      refine iff_of_true ?_ (move_quiet (s := s) (chosen_mem chosen)).2
      intro p clock ret ha
      cases ha
      cases chosen_mem chosen
    | @delete p clock hash mem ran dirs =>
      refine iff_of_false ?_ (List.cons_ne_nil _ _)
      intro hnone
      rw [hnone p clock 1 rfl hash] at mem
      cases mem
    | create last new ran dirs =>
      refine iff_of_true ?_ rfl
      intro p clock ret ha
      cases ha
    | visit kind disk dirs =>
      rcases kind with ⟨p, clock, rfl⟩ | ⟨p, clock, rfl⟩
      · refine iff_of_true ?_ rfl
        intro p clock ret ha
        cases ha
      · refine iff_of_true ?_ rfl
        intro p clock ret ha
        cases ha
    | idle picks same why =>
      refine iff_of_true ?_ ?_
      · intro p clock ret ha hash
        cases ha
        rcases why with ⟨hash', hnil⟩ | hempty
        · exact absurd hnil (hb.ne_nil hash')
        · exact hempty hash (mem_allHashes hash)
      · cases o <;> rfl

theorem agree_step (hf : Fresh env N s) (ha : Agree env s) (h : Change env N s s' a) :
    Agree env s' ↔ a.deletes = [] := by
  have ha' : kernelDirs env s.disk = s.names := ha
  have hsame (hdisk : kernelDirs env s'.disk = kernelDirs env s.disk)
      (hnames : s'.names = s.names) : Agree env s' := by
    show kernelDirs env s'.disk = s'.names
    rw [hdisk, hnames, ha']
  cases h with
  | @made n creates deletes new next ran dirs =>
    refine iff_of_true ?_ deletes
    show kernelDirs env s'.disk = s'.names
    rw [ran.kernelDirs (hf.get_new new), names_eq dirs, names_set, ha']
  | @moved o p ch n act pick dir chosen mem ran frame dirs =>
    obtain ⟨m, hm, hex, _⟩ := hf.named _ _ mem
    rw [← kernelName_injective hm] at hex
    refine iff_of_true (hsame (frame.kernelDirs hex) ?_) ?_
    · rw [names_eq dirs, names_move mem]
    · rw [act, (move_quiet (s := s) chosen).2]
  | @deleted n hash creates deletes mem frame dirs =>
    obtain ⟨m, hm, hex, _⟩ := hf.named _ _ mem
    rw [← kernelName_injective hm] at hex
    refine iff_of_false ?_ (by rw [deletes]; exact List.cons_ne_nil _ _)
    intro hagree
    -- the name is in no hash any more, its directory is still there
    have hdisk : kernelName n ∈ kernelDirs env s'.disk := by
      rw [frame.kernelDirs hex, ha']
      exact ⟨hash, mem⟩
    rw [show kernelDirs env s'.disk = s'.names from hagree] at hdisk
    obtain ⟨hash', hx⟩ := hdisk
    rw [dirs, mem_del] at hx
    exact hx.2 ⟨hf.unique _ _ _ hx.1 mem, rfl⟩
  | same creates deletes disk dirs => exact iff_of_true (hsame (by rw [disk]) (names_eq dirs)) deletes

/-- A directory that was deleted still exists. -/
theorem deleted_exists (hb : Books env N s) (h : Change env N s s' a) {x : Str}
    (hx : x ∈ a.deletes) : «exists» s'.disk (join env.benchdir x) = true := by
  obtain ⟨hash, hmem⟩ := h.deletes_live hx
  obtain ⟨n, rfl, hex, _⟩ := hb.named _ _ hmem
  obtain ⟨d, hframe⟩ := h.frame
  have hbase : s'.disk.get env.base = some .dir := by
    rw [hframe.base]
    exact hb.base
  apply (exists_join env.plain hbase (kernelDir n)).mpr
  show s'.disk.get (dirOf env (kernelDir n)) ≠ none
  rw [hframe.keeps hex]
  exact hex

section
variable {q : Quadruple} {s₀ : State} {tr : List (State × Act × State)}

/-- The hashes name the top-level directories all along a run iff the run deletes nothing; what it
deletes still exists, so its name is not free. -/
theorem agree_iff (he : EmptyDir env t) (hs : Start env q t s₀) (hr : Run (Step env N) s₀ tr s) :
    ((Agree env s₀ ∧ ∀ e ∈ tr, Agree env e.2.2) ↔ ∀ e ∈ tr, Undeleted e.1 e.2.1) ∧
      ∀ e ∈ tr, ∀ x ∈ e.2.1.deletes, «exists» e.2.2.disk (join env.benchdir x) = true := by
  have h₀ : Fresh env N s₀ := hs.fresh he
  have ha : Agree env s₀ := by
    obtain ⟨clocks, hinit⟩ := hs.init
    have hdisk := (init_spec he.dir hinit).1
    apply Set.eq_of_subset_of_subset
    · intro x h
      obtain ⟨n, rfl, _, hn⟩ := h
      rw [hdisk, show dirOf env n = n :: env.base from rfl, he.empty n] at hn
      cases hn
    · intro x hex
      obtain ⟨hash, hx⟩ := hex
      rw [hs.dirs] at hx
      cases hx
  refine ⟨?_, ?_⟩
  · rw [and_iff_right ha]
    exact hr.forall_iff (I := Fresh env N) (P := Agree env) (C := fun u a _ => Undeleted u a)
      (fun u a u' hu hst => hu.step hst) (fun u a u' hu hp hst =>
        (agree_step hu hp (hst.effect.1.change hu.toBooks)).trans
          (hst.effect.1.undeleted hu.toBooks).symm) h₀ ha
  · intro e hmem x hx
    obtain ⟨hf, hst, _⟩ := hr.steps_inv (I := Fresh env N) (fun u a u' hu hst => hu.step hst) h₀ e hmem
    exact deleted_exists hf.toBooks (hst.effect.1.change hf.toBooks) hx

end

/-- after `kernel-0` was created and deleted: a directory that no hash names -/
theorem agree_deleted : ∃ s₀ tr s, EmptyDir sampleEnv sampleDisk ∧
    Start sampleEnv sampleData sampleDisk s₀ ∧ Run (Step sampleEnv 1) s₀ tr s ∧
    ¬ Agree sampleEnv s := by
  obtain ⟨s₀, tr, s, hs, hr, hc⟩ := sample_run 1
    [.initial ⟨0, 0, 1⟩, .op (.delete ⟨0, kernelName 0⟩ ⟨0, 0, 1⟩) 1]
    (fun s => decide (s.disk.get (dirOf sampleEnv (kernelDir 0)) = some .dir ∧
      ∀ hash ∈ allHashes, kernelName 0 ∉ s.dirs hash)) (by decide +kernel)
  obtain ⟨hdir, hnone⟩ := of_decide_eq_true hc
  refine ⟨s₀, tr, s, sample_empty, hs, hr, ?_⟩
  intro ha
  have hdisk : kernelName 0 ∈ kernelDirs sampleEnv s.disk :=
    ⟨kernelDir 0, rfl, List.prefix_append _ _, hdir⟩
  rw [show kernelDirs sampleEnv s.disk = s.names from ha] at hdisk
  obtain ⟨hash, hmem⟩ := hdisk
  exact hnone hash (mem_allHashes hash) hmem

/-- a run that creates a tree and reads it -/
theorem agree_iff_read : ∃ s₀ tr s, Start sampleEnv sampleData sampleDisk s₀ ∧
    Run (Step sampleEnv 1) s₀ tr s ∧ kernelName 0 ∈ s.dirs .unpatched ∧
    ((Agree sampleEnv s₀ ∧ ∀ e ∈ tr, Agree sampleEnv e.2.2) ↔ ∀ e ∈ tr, Undeleted e.1 e.2.1) ∧
      ∀ e ∈ tr, ∀ x ∈ e.2.1.deletes,
        «exists» e.2.2.disk (join sampleEnv.benchdir x) = true := by
  obtain ⟨s₀, tr, s, hs, hr, hc⟩ := sample_run 1
    [.initial ⟨0, 0, 1⟩, .op (.read ⟨0, kernelName 0⟩ ⟨0, 0, 1⟩) 1]
    (fun s => decide (kernelName 0 ∈ s.dirs .unpatched)) (by decide +kernel)
  exact ⟨s₀, tr, s, hs, hr, of_decide_eq_true hc, agree_iff sample_empty hs hr⟩

end Compilebench
