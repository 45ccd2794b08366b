import TestUnion.Compilebench.Charges
import TestUnion.Compilebench.Raises

/-!
# compilebench: the throughput

* `Op.files`        the part of patch, compile and clean that changes the tree;
* `Ready`           such an operation has made its choices and its part that changes the tree ends;
* `Timing env clock P`   whatever has done its work on the tree completes iff `P`;
* `timing_iff`      with `P` the condition that a clock tick has passed.
-/

namespace Compilebench

open FileTree PosixPath PosixCalls ExceptLoop

variable {env : Env} {s s' : State} {t t' : Disk} {clock : Clock} {dataset : Entries} {dir : Str}

/-! ## the division -/

theorem ok_iff {α : Type} {c : Prop} [Decidable c] {a : α} :
    (if c then .error .zeroDivision else .ok a : Except Exn α) = .ok a ↔ ¬ c := by
  split
  · next h =>
    refine ⟨?_, fun hn => absurd h hn⟩
    intro hx
    cases hx
  · next h => exact ⟨fun _ => h, fun _ => rfl⟩

/-- What follows on the throughput is done iff the division is possible. -/
theorem exists_ok_iff {α β γ : Type} {c : Prop} [Decidable c] {a : α} {f : α → Except Exn β}
    {g : γ → β} {Q : γ → Prop} (h : ∃ b, f a = .ok (g b) ∧ Q b) :
    (∃ b, ((if c then .error .zeroDivision else .ok a) >>= f) = .ok (g b) ∧ Q b) ↔ ¬ c := by
  split
  · next hc =>
    refine ⟨?_, fun hn => absurd hc hn⟩
    intro hex
    obtain ⟨b, hb, _⟩ := hex
    cases hb
  · next hc => exact ⟨fun _ => hc, fun _ => h⟩

/-! ## operations -/

def Op.files (env : Env) : Op → Entries → Str → Disk → Except Exn Disk
  | .patch _ draw _ => fun dataset dir t =>
    if draw ≤ 3 then (runLoop env dataset dir (draw = 1) true t).map Prod.snd else .error .noDraw
  | .compile _ _ => fun dataset dir t => (runLoop env dataset dir false false t).map Prod.snd
  | .clean _ _ => fun dataset dir t => cleanLoop env dataset dir t
  | _ => fun _ _ _ => .error .noDraw

theorem runDirectory_of_map {unlinkFirst readfirst : Bool}
    (h : (runLoop env dataset dir unlinkFirst readfirst t).map Prod.snd = .ok t') :
    runDirectory env dataset dir unlinkFirst readfirst clock t
      = if clock.real = 0 then .error .zeroDivision else .ok t' := by
  cases hloop : runLoop env dataset dir unlinkFirst readfirst t with
  | error x =>
    rw [hloop] at h
    cases h
  | ok r =>
    rw [hloop] at h
    cases h
    exact runDirectory_of_loop hloop

theorem work_of_files {o : Op} (h : o.files env dataset dir t = .ok t') :
    o.work env dataset dir t = if o.clock.real = 0 then .error .zeroDivision else .ok t' := by
  cases o with
  | patch p draw clock =>
    have h' : (if draw ≤ 3 then (runLoop env dataset dir (draw = 1) true t).map Prod.snd
      else .error .noDraw) = .ok t' := h
    show (if draw ≤ 3 then runDirectory env dataset dir (draw = 1) true clock t
      else .error .noDraw) = _
    split at h'
    · next hd =>
      rw [if_pos hd]
      exact runDirectory_of_map h'
    · cases h'
  | compile p clock => exact runDirectory_of_map h
  | clean p clock => exact cleanDirectory_of_loop h
  | delete p clock => cases h
  | create draws clock => cases h
  | read p clock => cases h
  | stat p clock => cases h

/-- The operation has chosen `p.dir` for the move `ch` and makes `t'` of the tree. -/
structure Ready (env : Env) (s : State) (o : Op) (p : Pick) (ch : Move) (t' : Disk) : Prop where
  pick : o.pick = some p
  chosen : (goodMoves s (o.moves s.data))[p.index]? = some ch
  mem : p.dir ∈ s.dirs ch.source
  dir : p.dir ≠ []
  files : o.files env ch.dataset p.dir s.disk = .ok t'

theorem moveOneDir_of_work {op : List Move} {work : Entries → Str → Disk → Except Exn Disk}
    {counter : Stat} {p : Pick} {ch : Move} (hch : (goodMoves s op)[p.index]? = some ch)
    (hmem : p.dir ∈ s.dirs ch.source) (hdir : p.dir ≠ []) :
    moveOneDir op work counter p clock s = work ch.dataset p.dir s.disk >>= fun t =>
      .ok (1, (({ s with disk := t }.del ch.source p.dir).set ch.dest p.dir).addTimes counter
        clock) := by
  have hlen : (goodMoves s op).length ≠ 0 := by
    intro h
    rw [List.eq_nil_of_length_eq_zero h] at hch
    cases hch
  have hpick : Compilebench.pick (goodMoves s op) (fun x => s.dirs x.source) p
      = .ok (ch, p.dir) := pick_ok.mpr ⟨hch, hmem, rfl⟩
  unfold moveOneDir
  dsimp only
  rw [if_neg hlen, hpick]
  exact if_neg hdir

/-- `o` moves `dir` and leaves the tree `t'`. -/
def Moves (env : Env) (s : State) (o : Op) (ch : Move) (dir : Str) (t' : Disk) : Prop :=
  ∃ s', o.run env s = .ok (1, s') ∧ s'.disk = t' ∧
    s'.dirs = ((s.del ch.source dir).set ch.dest dir).dirs

theorem moves_iff {o : Op} {p : Pick} {ch : Move} (op : List Move) (counter : Stat)
    (hrun : o.run env s = moveOneDir op (o.work env) counter p o.clock s)
    (hop : op = o.moves s.data) (h : Ready env s o p ch t') :
    Moves env s o ch p.dir t' ↔ o.clock.real ≠ 0 := by
  subst hop
  unfold Moves
  rw [hrun, moveOneDir_of_work h.chosen h.mem h.dir, work_of_files h.files]
  exact exists_ok_iff (g := Prod.mk 1) ⟨_, rfl, rfl, rfl⟩

/-- Whatever has done its work on the tree completes iff `P`. -/
structure Timing (env : Env) (clock : Clock) (P : Prop) : Prop where
  runDirectory : ∀ dataset dirname unlinkFirst readfirst t r,
    runLoop env dataset dirname unlinkFirst readfirst t = .ok r →
      (runDirectory env dataset dirname unlinkFirst readfirst clock t = .ok r.2 ↔ P)
  cleanDirectory : ∀ dataset dirname t t', cleanLoop env dataset dirname t = .ok t' →
    (cleanDirectory env dataset dirname clock t = .ok t' ↔ P)
  readDirtree : ∀ dirname t n, readFiles env dirname t = .ok n →
    (readDirtree env dirname clock t = .ok n ↔ P)
  moves : ∀ s o p ch t', o.clock = clock → Ready env s o p ch t' →
    (Moves env s o ch p.dir t' ↔ P)
  create : ∀ s draws dirname r, freeKernel env s.disk draws = .ok dirname →
    runLoop env s.data.unpatched dirname false false s.disk = .ok r →
      ((∃ s', createOneDir env draws clock s = .ok (1, s') ∧ s'.disk = r.2 ∧
        s'.dirs = (s.set .unpatched dirname).dirs) ↔ P)
  createInitial : ∀ s r, runLoop env s.data.unpatched (kernelName s.initial) false false s.disk
      = .ok r →
    ((∃ s', createInitial env clock s = .ok s' ∧ s'.disk = r.2 ∧
      s'.dirs = (s.set .unpatched (kernelName s.initial)).dirs) ↔ P)

/-- The throughput is computed, and the hashes are brought up to date, iff a clock tick has
passed. -/
theorem timing_iff (env : Env) (clock : Clock) : Timing env clock (clock.real ≠ 0) where
  runDirectory dataset dirname unlinkFirst readfirst t r h := by
    rw [runDirectory_of_loop h]
    exact ok_iff
  cleanDirectory dataset dirname t t' h := by
    rw [cleanDirectory_of_loop h]
    exact ok_iff
  readDirtree dirname t n h := by
    rw [readDirtree_of_files h]
    exact ok_iff
  moves s o p ch t' hclock h := by
    subst hclock
    cases o with
    | patch p' draw clock =>
      cases h.pick
      exact moves_iff (patchOp s.data) .patch rfl rfl h
    | compile p' clock =>
      cases h.pick
      exact moves_iff (compileOp s.data) .compile rfl rfl h
    | clean p' clock =>
      cases h.pick
      exact moves_iff (cleanOp s.data) .clean (cleanOneDir_eq p clock) rfl h
    | delete p' clock => cases h.files
    | create draws clock => cases h.files
    | read p' clock => cases h.files
    | stat p' clock => cases h.files
  create s draws dirname r hname h := by
    unfold createOneDir
    rw [hname]
    show (∃ s', (runDirectory env s.data.unpatched dirname false false clock s.disk >>= fun t =>
      .ok (1, ({ s with disk := t }.set .unpatched dirname).addTimes .create clock)) = .ok (1, s') ∧
        _) ↔ _
    rw [runDirectory_of_loop h]
    exact exists_ok_iff (g := Prod.mk 1) ⟨_, rfl, rfl, rfl⟩
  createInitial s r h := by
    unfold Compilebench.createInitial
    dsimp only
    rw [runDirectory_of_loop h]
    exact exists_ok_iff (g := id) ⟨_, rfl, rfl, rfl⟩

/-- An empty dataset is written in no time. -/
theorem not_timing : ¬ ∀ clock : Clock, 0 ≤ clock.user → 0 ≤ clock.system → 0 ≤ clock.real →
    Timing sampleEnv clock True := by
  intro hall
  have h := (hall ⟨0, 0, 0⟩ (by decide) (by decide) (by decide)).runDirectory [] (kernelName 0)
    false false sampleDisk _ rfl
  have h' := h.mpr trivial
  rw [runDirectory_of_loop (r := (∅, (mkdirKeep (join sampleEnv.benchdir (kernelName 0))
    sampleDisk).2)) rfl] at h'
  exact absurd rfl (ok_iff.mp h')

end Compilebench
