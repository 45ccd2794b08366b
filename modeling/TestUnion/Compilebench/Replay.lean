import TestUnion.Compilebench.Contents

/-!
# compilebench: a tree is what its own history makes of it

* `Event`, `Life`    what happens to a tree of the benchmark, and what is left of it afterwards;
* `Event.run`        the life after an event, when the event is possible;
* `Act.event`        the event that an act is for the tree `kernel-n`;
* `Lives env s n l`  the disk and the hashes show the tree `kernel-n` as `l` says;
* `tree_replayed`    in every run the events of a tree are possible one after the other, and the disk
                     and the hashes show what they lead to: no other tree has a part in it.

A tree that was deleted leaves its empty directory, so its name is not given again.
-/

namespace Compilebench

open FileTree PosixPath PosixCalls Lts

variable {env : Env} {N : ℕ} {s s' : State} {t : Disk} {a : Act} {n : ℕ}

/-! ## lives -/

inductive Event where
  | make
  | move (o : Op)
  | drop

inductive Life where
  | unborn
  | alive (hash : Hash) (files : Path → Option ℕ)
  | gone

/-- A tree is made once, with the unpatched files.  It moves as long as the operation is one for the
hash that it is in, until it is dropped. -/
def Event.run (data : Data) : Life → Event → Option Life
  | .unborn, .make => some (.alive .unpatched (written false [] data.unpatched fun _ => none))
  | .alive hash files, .move o =>
    ((o.moves data).find? fun ch => ch.source = hash).map fun ch =>
      .alive ch.dest (o.change ch.dataset files)
  | .alive _ _, .drop => some .gone
  | _, _ => none

/-- the event that the act is for `kernel-n` -/
def Act.event (n : ℕ) (s : State) (a : Act) : Option Event :=
  if (a.creates s).contains (kernelName n) then some .make
  else if a.deletes.contains (kernelName n) then some .drop
  else match a with
    | .op o 1 =>
      if o.pick.map Pick.dir = some (kernelName n) ∧ (o.moves s.data).isEmpty = false then
        some (.move o)
      else none
    | _ => none

/-- the directory of the tree, its name in the hashes and its files -/
def Lives (env : Env) (s : State) (n : ℕ) : Life → Prop
  | .unborn => s.disk.get (dirOf env (kernelDir n)) = none ∧ ∀ hash, kernelName n ∉ s.dirs hash
  | .alive hash files => s.disk.get (dirOf env (kernelDir n)) = some .dir ∧
      (∀ hash', kernelName n ∈ s.dirs hash' ↔ hash' = hash) ∧
      contents env s.disk (kernelName n) = files
  | .gone => s.disk.get (dirOf env (kernelDir n)) = some .dir ∧
      (∀ hash, kernelName n ∉ s.dirs hash) ∧
      ∀ q, Below (dirOf env (kernelDir n)) q → s.disk.get q = none

/-! ## the event of a step -/

theorem event_make (h : kernelName n ∈ a.creates s) : a.event n s = some .make :=
  if_pos (List.contains_iff_mem.mpr h)

theorem event_drop (hc : kernelName n ∉ a.creates s) (hd : kernelName n ∈ a.deletes) :
    a.event n s = some .drop := by
  unfold Act.event
  rw [if_neg (List.contains_iff_mem.not.mpr hc), if_pos (List.contains_iff_mem.mpr hd)]

theorem event_move {o : Op} {p : Pick} {ch : Move} (hp : o.pick = some p)
    (hdir : p.dir = kernelName n) (hch : ch ∈ o.moves s.data) :
    (Act.op o 1).event n s = some (.move o) := by
  have hquiet : (Act.op o 1).creates s = [] ∧ (Act.op o 1).deletes = [] := move_quiet hch
  unfold Act.event
  rw [hquiet.1, hquiet.2]
  show (if o.pick.map Pick.dir = some (kernelName n) ∧ (o.moves s.data).isEmpty = false then
    some (Event.move o) else none) = _
  rw [if_pos]
  refine ⟨?_, ?_⟩
  · rw [hp, Option.map_some, hdir]
  · rw [List.isEmpty_eq_false_iff]
    exact List.ne_nil_of_mem hch

/-- the only way to a move -/
theorem event_other (hc : kernelName n ∉ a.creates s) (hd : kernelName n ∉ a.deletes)
    (h : ∀ o p, a = .op o 1 → o.pick = some p → p.dir = kernelName n →
      (o.moves s.data).isEmpty = false → False) : a.event n s = none := by
  unfold Act.event
  rw [if_neg (List.contains_iff_mem.not.mpr hc), if_neg (List.contains_iff_mem.not.mpr hd)]
  split
  · next o =>
    rw [if_neg]
    intro hall
    obtain ⟨hpick, hmoves⟩ := hall
    obtain ⟨p, hp, hdir⟩ := Option.map_eq_some_iff.mp hpick
    exact h o p rfl hp hdir hmoves
  · rfl

/-- What creates or deletes a tree is no event for another one. -/
theorem event_apart (hc : kernelName n ∉ a.creates s) (hd : kernelName n ∉ a.deletes)
    (hne : a.creates s ≠ [] ∨ a.deletes ≠ []) : a.event n s = none := by
  apply event_other hc hd
  rintro o p rfl - - hmoves
  obtain ⟨ch, hch⟩ := List.exists_mem_of_ne_nil _ (List.isEmpty_eq_false_iff.mp hmoves)
  have hquiet : (Act.op o 1).creates s = [] ∧ (Act.op o 1).deletes = [] := move_quiet hch
  rcases hne with h | h
  · exact h hquiet.1
  · exact h hquiet.2

/-- A move changes the hashes. -/
theorem event_same (hb : Books env N s) (heff : Effect env N s s' a) (hc : a.creates s = [])
    (hd : a.deletes = []) (dirs : s'.dirs = s.dirs) : a.event n s = none := by
  apply event_other (by rw [hc]; exact List.not_mem_nil) (by rw [hd]; exact List.not_mem_nil)
  rintro o p rfl hp hdir hmoves
  cases heff with
  | op all next done =>
    cases done with
    | @move _ p' ch pick chosen mem ran dirs' =>
      have hch := chosen_mem chosen
      have hin : p'.dir ∈ s'.dirs ch.dest := by
        rw [dirs', mem_set]
        exact .inl ⟨rfl, rfl⟩
      rw [dirs] at hin
      exact moves_ne hch (hb.unique _ _ _ mem hin)
    | delete mem ran dirs' => cases hmoves
    | create last new ran dirs' => cases hmoves
    | visit kind disk dirs' => rcases kind with ⟨p, clock, rfl⟩ | ⟨p, clock, rfl⟩ <;> cases hmoves

theorem Effect.dropped (heff : Effect env N s s' a) (h : kernelName n ∈ a.deletes) :
    rmrf env (kernelName n) s.disk = .ok s'.disk := by
  cases heff with
  | initial lt ran dirs next => cases h
  | @op o ret all next done =>
    cases done with
    | move pick chosen mem ran dirs =>
      rw [(move_quiet (s := s) (chosen_mem chosen)).2] at h
      cases h
    | delete mem ran dirs =>
      rw [List.mem_singleton.mp h]
      exact ran
    | create last new ran dirs => cases h
    | visit kind disk dirs => rcases kind with ⟨p, clock, rfl⟩ | ⟨p, clock, rfl⟩ <;> cases h
    | idle picks same why => cases o <;> cases h

/-! ## one step -/

/-- A step that leaves the directory and the hashes alone leaves the life. -/
theorem Lives.frame {m : ℕ} {l : Life} (h : Lives env s n l)
    (hf : Frame env (kernelDir m) s.disk s'.disk) (hne : m ≠ n)
    (hdirs : ∀ hash, kernelName n ∈ s'.dirs hash ↔ kernelName n ∈ s.dirs hash) :
    Lives env s' n l := by
  have hdir : kernelDir m ≠ kernelDir n := fun he => hne (kernelName_injective
    (congrArg Subtype.val he))
  have hget (q : Path) (hq : dirOf env (kernelDir n) <:+ q) : s'.disk.get q = s.disk.get q := by
    apply hf.outside
    intro hs
    exact hdir (child_unique hs hq)
  have htop := hget _ (List.suffix_refl _)
  cases l with
  | unborn => exact ⟨htop.trans h.1, fun hash => (hdirs hash).not.mpr (h.2 hash)⟩
  | alive hash files =>
    obtain ⟨hd, hmem, hfiles⟩ := h
    refine ⟨htop.trans hd, fun hash' => (hdirs hash').trans (hmem hash'), ?_⟩
    have hc : contents env s'.disk (kernelName n) = contents env s.disk (kernelName n) :=
      hf.contents hdir
    rw [hc, hfiles]
  | gone =>
    obtain ⟨hd, hmem, hbelow⟩ := h
    refine ⟨htop.trans hd, fun hash => (hdirs hash).not.mpr (hmem hash), ?_⟩
    intro q hq
    rw [hget q hq.1, hbelow q hq]

theorem Lives.same {l : Life} (h : Lives env s n l) (disk : s'.disk = s.disk)
    (dirs : s'.dirs = s.dirs) : Lives env s' n l := by
  cases l <;> simpa only [Lives, disk, dirs] using h

/-- a tree in a hash is alive, with its files -/
theorem Lives.of_mem {l : Life} (h : Lives env s n l) {hash : Hash}
    (hmem : kernelName n ∈ s.dirs hash) :
    l = .alive hash (contents env s.disk (kernelName n)) ∧
      s.disk.get (dirOf env (kernelDir n)) = some .dir := by
  cases l with
  | unborn => exact absurd hmem (h.2 hash)
  | alive hash' files =>
    obtain ⟨hd, hall, rfl⟩ := h
    rw [(hall hash).mp hmem]
    exact ⟨rfl, hd⟩
  | gone => exact absurd hmem (h.2.1 hash)

theorem Lives.of_new {l : Life} (h : Lives env s n l)
    (hnew : s.disk.get (dirOf env (kernelDir n)) = none) : l = .unborn := by
  cases l with
  | unborn => rfl
  | alive hash files =>
    rw [h.1] at hnew
    cases hnew
  | gone =>
    rw [h.1] at hnew
    cases hnew

/-- An operation has one dataset for each hash. -/
theorem moves_find {data : Data} {o : Op} {ch : Move} (h : ch ∈ o.moves data) :
    (o.moves data).find? (fun x => x.source = ch.source) = some ch := by
  cases o <;> simp only [Op.moves, patchOp, compileOp, cleanOp, List.mem_cons, List.not_mem_nil,
    or_false] at h <;> rcases h with rfl | rfl <;> rfl

/-- The event of the act is possible in the life, and leaves what the state after it shows. -/
def Follows (env : Env) (s : State) (a : Act) (s' : State) (n : ℕ) (l : Life) : Prop :=
  ∃ l', (a.event n s).toList.foldlM (Event.run s.data) l = some l' ∧ Lives env s' n l'

section
variable {l l' : Life} {m : ℕ} {o : Op} {p : Pick} {ch : Move} {hash : Hash}

theorem Follows.of_event {e : Event} (he : a.event n s = some e) (hrun : e.run s.data l = some l')
    (hl : Lives env s' n l') : Follows env s a s' n l := by
  refine ⟨l', ?_, hl⟩
  rw [he, Option.toList_some, List.foldlM_cons, hrun]
  rfl

theorem Follows.of_none (he : a.event n s = none) (hl : Lives env s' n l) :
    Follows env s a s' n l := by
  refine ⟨l, ?_, hl⟩
  rw [he]
  rfl

theorem kernelName_ne (h : m ≠ n) : kernelName n ≠ kernelName m :=
  fun he => h (kernelName_injective he).symm

/-! The event for the tree itself: -/

theorem Lives.made (hl : Lives env s n l) (hf : Fresh env N s) (creates : a.creates s = [kernelName n])
    (new : s.disk.get (dirOf env (kernelDir n)) = none ∨ (s.initial < N ∧ n = s.initial))
    (ran : Ran env (kernelDir n) s.data.unpatched false s.disk s'.disk)
    (dirs : s'.dirs = (s.set .unpatched (kernelName n)).dirs) : Follows env s a s' n l := by
  have hnone := hf.get_new new
  have hunborn := hl.of_new hnone
  subst hunborn
  apply Follows.of_event (event_make (by rw [creates]; exact List.mem_singleton_self _)) rfl
  refine ⟨?_, ?_, contents_made hf new ran⟩
  · rw [ran.top, if_pos hnone]
  · intro hash
    rw [dirs]
    simp [hl.2 hash]

theorem Lives.moved (hl : Lives env s n l) (hb : Books env N s) (pick : o.pick = some p)
    (dir : p.dir = kernelName n) (chosen : ch ∈ o.moves s.data)
    (mem : kernelName n ∈ s.dirs ch.source)
    (ran : o.work env ch.dataset (kernelName n) s.disk = .ok s'.disk)
    (frame : Frame env (kernelDir n) s.disk s'.disk)
    (dirs : s'.dirs = ((s.del ch.source (kernelName n)).set ch.dest (kernelName n)).dirs) :
    Follows env s (.op o 1) s' n l := by
  obtain ⟨rfl, htop⟩ := hl.of_mem mem
  have hrun : (Event.move o).run s.data (.alive ch.source (contents env s.disk (kernelName n))) =
      some (.alive ch.dest (o.change ch.dataset (contents env s.disk (kernelName n)))) := by
    show ((o.moves s.data).find? fun x => x.source = ch.source).map _ = _
    rw [moves_find chosen]
    rfl
  apply Follows.of_event (event_move pick dir chosen) hrun
  refine ⟨?_, ?_, moved_contents hb chosen mem ran⟩
  · rw [frame.top (by rw [htop]; exact Option.some_ne_none _), htop]
  · intro hash
    rw [dirs, mem_set, mem_del]
    refine ⟨?_, fun he => .inl ⟨he, rfl⟩⟩
    rintro (⟨he, _⟩ | ⟨hmem, hnot⟩)
    · exact he
    · exact absurd ⟨hb.unique _ _ _ hmem mem, rfl⟩ hnot

theorem Lives.deleted (hl : Lives env s n l) (hb : Books env N s) (heff : Effect env N s s' a)
    (creates : a.creates s = []) (deletes : a.deletes = [kernelName n])
    (mem : kernelName n ∈ s.dirs hash) (dirs : s'.dirs = (s.del hash (kernelName n)).dirs) :
    Follows env s a s' n l := by
  obtain ⟨rfl, htop⟩ := hl.of_mem mem
  have hdel : kernelName n ∈ a.deletes := by
    rw [deletes]
    exact List.mem_singleton_self _
  obtain ⟨t', ht', hget⟩ := rmrf_spec (d := kernelDir n) htop
  have hran : rmrf env (kernelDir n).1 s.disk = .ok s'.disk := heff.dropped hdel
  rw [ht'] at hran
  cases hran
  apply Follows.of_event (event_drop (by rw [creates]; exact List.not_mem_nil) hdel) rfl
  refine ⟨?_, ?_, ?_⟩
  · rw [hget, if_neg not_below_self, htop]
  · intro hash'
    rw [dirs, mem_del]
    intro hx
    exact hx.2 ⟨hb.unique _ _ _ hx.1 mem, rfl⟩
  · intro q hq
    rw [hget, if_pos hq]

/-! The events for another tree: -/

theorem Lives.made_other (hl : Lives env s n l) (hne : m ≠ n) (creates : a.creates s = [kernelName m])
    (deletes : a.deletes = []) (frame : Frame env (kernelDir m) s.disk s'.disk)
    (dirs : s'.dirs = (s.set .unpatched (kernelName m)).dirs) : Follows env s a s' n l := by
  have hname := kernelName_ne hne
  have hevent : a.event n s = none := by
    apply event_apart
    · rw [creates, List.mem_singleton]
      exact hname
    · rw [deletes]
      exact List.not_mem_nil
    · rw [creates]
      exact .inl (List.cons_ne_nil _ _)
  apply Follows.of_none hevent
  apply hl.frame frame hne
  intro hash
  rw [dirs]
  simp [hname]

theorem Lives.moved_other (hl : Lives env s n l) (hne : m ≠ n) (pick : o.pick = some p)
    (dir : p.dir = kernelName m) (chosen : ch ∈ o.moves s.data)
    (frame : Frame env (kernelDir m) s.disk s'.disk)
    (dirs : s'.dirs = ((s.del ch.source (kernelName m)).set ch.dest (kernelName m)).dirs) :
    Follows env s (.op o 1) s' n l := by
  have hname := kernelName_ne hne
  have hquiet : (Act.op o 1).creates s = [] ∧ (Act.op o 1).deletes = [] := move_quiet chosen
  have hevent : (Act.op o 1).event n s = none := by
    apply event_other
    · rw [hquiet.1]
      exact List.not_mem_nil
    · rw [hquiet.2]
      exact List.not_mem_nil
    · rintro o' p' ho hp hdir -
      cases ho
      rw [pick] at hp
      cases hp
      exact hname (hdir.symm.trans dir)
  apply Follows.of_none hevent
  apply hl.frame frame hne
  intro hash
  rw [dirs]
  simp [hname]

theorem Lives.deleted_other (hl : Lives env s n l) (hne : m ≠ n) (creates : a.creates s = [])
    (deletes : a.deletes = [kernelName m]) (frame : Frame env (kernelDir m) s.disk s'.disk)
    (dirs : s'.dirs = (s.del hash (kernelName m)).dirs) : Follows env s a s' n l := by
  have hname := kernelName_ne hne
  have hevent : a.event n s = none := by
    apply event_apart
    · rw [creates]
      exact List.not_mem_nil
    · rw [deletes, List.mem_singleton]
      exact hname
    · rw [deletes]
      exact .inr (List.cons_ne_nil _ _)
  apply Follows.of_none hevent
  apply hl.frame frame hne
  intro hash
  rw [dirs]
  simp [hname]

theorem Lives.step (hl : Lives env s n l) (hf : Fresh env N s) (h : Step env N s a s') :
    Follows env s a s' n l := by
  obtain ⟨heff, _⟩ := h.effect
  have hb := hf.toBooks
  cases heff.change hb with
  | @made m creates deletes new next ran dirs =>
    by_cases hmn : m = n
    · subst hmn
      exact hl.made hf creates new ran dirs
    · exact hl.made_other hmn creates deletes ran.frame dirs
  | @moved o p ch m act pick dir chosen mem ran frame dirs =>
    subst act
    by_cases hmn : m = n
    · subst hmn
      exact hl.moved hb pick dir chosen mem ran frame dirs
    · exact hl.moved_other hmn pick dir chosen frame dirs
  | @deleted m hash creates deletes mem frame dirs =>
    by_cases hmn : m = n
    · subst hmn
      exact hl.deleted hb heff creates deletes mem dirs
    · exact hl.deleted_other hmn creates deletes frame dirs
  | same creates deletes disk dirs =>
    exact .of_none (event_same hb heff creates deletes dirs) (hl.same disk dirs)

end

/-! ## runs -/

/-- Every tree is what its own events make of it, whatever happens to the others, and no event is
out of place. -/
theorem tree_replayed {q : Quadruple} {s₀ : State} {tr : List (State × Act × State)}
    (he : EmptyDir env t) (hs : Start env q t s₀) (hr : Run (Step env N) s₀ tr s) (n : ℕ) :
    ∃ l, (seen (Act.event n) tr).foldlM (Event.run s₀.data) Life.unborn = some l ∧
      Lives env s n l := by
  apply hr.follows (I := fun u => Fresh env N u ∧ u.data = s₀.data)
  · intro u a u' hu hst
    exact ⟨hu.1.step hst, by rw [hst.effect.2, hu.2]⟩
  · intro u a u' l hu hst hl
    rw [← hu.2]
    exact hl.step hu.1 hst
  · exact ⟨hs.fresh he, rfl⟩
  · obtain ⟨clocks, hinit⟩ := hs.init
    refine ⟨?_, ?_⟩
    · rw [(init_spec he.dir hinit).1]
      exact he.empty (kernelDir n)
    · intro hash
      rw [hs.dirs]
      exact Finset.notMem_empty _

/-- one tree that is compiled and read while another one is created and deleted -/
theorem tree_replayed_compiled :
    ∃ s₀ tr s, Start sampleEnv sampleData sampleDisk s₀ ∧ Run (Step sampleEnv 1) s₀ tr s ∧
      kernelName 0 ∈ s.dirs .unpatchedCompiled ∧
      ∃ l, (seen (Act.event 0) tr).foldlM (Event.run s₀.data) Life.unborn = some l ∧
        Lives sampleEnv s 0 l := by
  obtain ⟨s₀, tr, s, hs, hr, hc⟩ := sample_run 1
    [.initial ⟨0, 0, 1⟩, .op (.create [100] ⟨0, 0, 1⟩) 1,
      .op (.compile ⟨0, kernelName 0⟩ ⟨0, 0, 1⟩) 1,
      .op (.read ⟨1, kernelName 0⟩ ⟨0, 0, 1⟩) 1,
      .op (.delete ⟨0, kernelName 100⟩ ⟨0, 0, 1⟩) 1]
    (fun s => decide (kernelName 0 ∈ s.dirs .unpatchedCompiled)) (by decide +kernel)
  exact ⟨s₀, tr, s, hs, hr, of_decide_eq_true hc, tree_replayed sample_empty hs hr 0⟩

end Compilebench
