import TestUnion.Lts
import TestUnion.Words

/-!
# stress-git-full-co: a checkout of every commit, in several goes

* `Call`, `Pc`, `St`   the commands that were given, where the script is, and the file that is left
                    for the next go;
* `Step`            a step of the script; it may be killed anywhere and be started again;
* `Linear`          `git rev-list` on a history without merges;
* `Saved`, `Where`  the commit that the file names, and what is done and what comes next;
* `resumed`         what was checked out is the newest part of the history, a go that is not killed
                    adds `maxCount - 1` commits, and a file that is left empty stops all of it.
-/

namespace StressGitFullCo

open Lts

abbrev Word := List Char

/-- `IFS` -/
def isIfs (c : Char) : Bool := c = ' ' || c = '\t' || c = '\n'

inductive Call where
  | start
  | checkout (i : Word)
  | sync
  deriving DecidableEq

def Call.commit : Call → Option Word
  | .checkout i => some i
  | _ => none

/-- what `git checkout -f` was called with -/
def visited (log : List Call) : List Word := log.filterMap Call.commit

/-- the checkouts of this go since the last `btrfs filesystem sync` -/
def unsynced : List Call → ℕ := List.foldl (fun n c => match c with
  | .checkout _ => n + 1
  | _ => 0) 0

/-- `todo` is what is left of the list of the loop. -/
inductive Pc where
  | idle
  | loop (todo : List Word)
  | checkedOut (i : Word) (todo : List Word)
  | truncated (i : Word) (todo : List Word)
  | recorded (todo : List Word)

structure St where
  /-- `git-stress-last-commit` -/
  file : Option Word
  pc : Pc
  synci : ℕ
  log : List Call

inductive Act where
  | start
  | checkout
  | truncate
  | write (ok : Bool)
  | sync
  | finish
  | kill
  deriving DecidableEq

def range (file : Option Word) : Word := file.getD "master".toList

def maxCount : ℕ := 100000

section
variable (revList : ℕ → List Word → List Word)

/-- `revList n args` is what `git rev-list --max-count=n args` prints.  The shell empties the file
before `echo` writes to it; `git show` and `lsdiff` change nothing. -/
inductive Step : St → Act → St → Prop
  | start {file synci log} : Step ⟨file, .idle, synci, log⟩ .start
      ⟨file, .loop (revList maxCount (words isIfs (range file))), 0, log ++ [.start]⟩
  | checkout {file i todo synci log} : Step ⟨file, .loop (i :: todo), synci, log⟩ .checkout
      ⟨file, .checkedOut i todo, synci, log ++ [.checkout i]⟩
  | truncate {file i todo synci log} : Step ⟨file, .checkedOut i todo, synci, log⟩ .truncate
      ⟨some [], .truncated i todo, synci, log⟩
  | write {file i todo synci log} : Step ⟨file, .truncated i todo, synci, log⟩ (.write true)
      ⟨some (i ++ ['\n']), .recorded todo, synci, log⟩
  | writeFails {file i todo synci log} : Step ⟨file, .truncated i todo, synci, log⟩ (.write false)
      ⟨file, .recorded todo, synci, log⟩
  | sync {file todo synci log} (late : 100 < synci) : Step ⟨file, .recorded todo, synci, log⟩ .sync
      ⟨file, .loop todo, 1, log ++ [.sync]⟩
  | noSync {file todo synci log} (early : ¬ 100 < synci) :
    Step ⟨file, .recorded todo, synci, log⟩ .sync
      ⟨file, .loop todo, synci + 1, log⟩
  | finish {file synci log} : Step ⟨file, .loop [], synci, log⟩ .finish ⟨file, .idle, synci, log⟩
  | kill {file pc synci log} : Step ⟨file, pc, synci, log⟩ .kill ⟨file, .idle, synci, log⟩

/-- `h` is the history of `master`, newest first.  Without a revision `git rev-list` is an error. -/
structure Linear (h : List Word) : Prop where
  none : ∀ n, revList n [] = []
  master : ∀ n, revList n ["master".toList] = h.take n
  commit : ∀ n q c, h[q]? = some c → revList n [c] = (h.drop q).take n
  word : ∀ c ∈ h, c ≠ [] ∧ ∀ a ∈ c, isIfs a = false

end

/-- the goes that came to their end -/
def finished (tr : List (St × Act × St)) : ℕ := tr.countP fun x => x.2.1 = .finish

/-- Each go starts with the last commit of the one before. -/
def batch (m : ℕ) : ℕ := m * (maxCount - 1)

theorem maxCount_pos : 0 < maxCount := Nat.succ_pos _

theorem batch_zero : batch 0 = 0 := Nat.zero_mul _

theorem batch_succ (m : ℕ) : batch (m + 1) + 1 = batch m + maxCount := by
  unfold batch
  rw [Nat.succ_mul, Nat.add_assoc, Nat.sub_add_cancel maxCount_pos]

/-! ## what is done, and what comes next -/

section
variable (h : List Word)

/-- The next go starts at commit `q`. -/
def Saved (file : Option Word) (q : ℕ) : Prop :=
  (file = none ∧ q = 0) ∨ ∃ c, h[q]? = some c ∧ file = some (c ++ ['\n'])

/-- `k` commits were checked out, the next one to do is `p`, after `done` goes. -/
structure Far (done k p : ℕ) : Prop where
  le : p ≤ k
  near : k ≤ p + 2
  start : batch done ≤ p ∨ h.length ≤ p + 1
  all : done = 0 ∨ batch done + 1 ≤ k ∨ h.length ≤ k

/-- The file is empty, or names a commit at most one before `p`. -/
def Kept (done k p : ℕ) (file : Option Word) : Prop :=
  file = some [] ∨
    ∃ q, Saved h file q ∧ Far h done k q ∧ (file ≠ none → q < k) ∧ (p = q ∨ p = q + 1)

/-- The list of this go ends far enough. -/
def Ahead (done p : ℕ) (todo : List Word) : Prop :=
  ∃ r, todo = (h.drop p).take r ∧ (batch (done + 1) + 1 ≤ p + r ∨ h.length ≤ p + r)

def Where (done k : ℕ) (file : Option Word) : Pc → Prop
  | .idle => file = some [] ∨ ∃ q, Saved h file q ∧ Far h done k q ∧ (file ≠ none → q < k)
  | .loop todo => (file = some [] ∧ todo = []) ∨
      ∃ p, Far h done k p ∧ Ahead h done p todo ∧ Kept h done k p file
  | .checkedOut i todo => ∃ p, h[p]? = some i ∧ p < k ∧ Far h done k p ∧ Ahead h done (p + 1) todo ∧
      Kept h done k p file
  | .truncated i todo => ∃ p, h[p]? = some i ∧ p < k ∧ Far h done k p ∧ Ahead h done (p + 1) todo ∧
      file = some []
  | .recorded todo => ∃ p, Far h done k p ∧ Ahead h done p todo ∧ Kept h done k p file

def Inv (done : ℕ) (s : St) : Prop :=
  ∃ k, (∀ c, c ∈ visited s.log ↔ c ∈ h.take k) ∧ Where h done k s.file s.pc

end

section
variable {revList : ℕ → List Word → List Word} {h : List Word} {done k p q : ℕ} {file : Option Word}
  {todo : List Word} {c i : Word} {s t : St} {a : Act} {tr : List (St × Act × St)}

theorem visited_concat (log : List Call) (x : Call) :
    visited (log ++ [x]) = visited log ++ x.commit.toList := by
  unfold visited
  rw [List.filterMap_append]
  cases x <;> rfl

theorem Far.mono (hf : Far h done k p) : Far h done (max k (p + 1)) p := by
  obtain ⟨hle, hnear, hstart, hall⟩ := hf
  exact ⟨by omega, by omega, hstart, by omega⟩

theorem Far.next (hf : Far h done k p) (hpk : p < k) : Far h done k (p + 1) := by
  obtain ⟨hle, hnear, hstart, hall⟩ := hf
  exact ⟨hpk, by omega, by omega, hall⟩

theorem Kept.idle (hk : Kept h done k p file) : Where h done k file .idle := by
  rcases hk with hempty | ⟨q, hsaved, hfar, hlt, -⟩
  · exact .inl hempty
  · exact .inr ⟨q, hsaved, hfar, hlt⟩

theorem Where.killed {pc : Pc} (hw : Where h done k file pc) : Where h done k file .idle := by
  cases pc with
  | idle => exact hw
  | loop todo =>
    rcases hw with ⟨hempty, -⟩ | ⟨p, -, -, hkept⟩
    · exact .inl hempty
    · exact hkept.idle
  | checkedOut i todo =>
    obtain ⟨p, -, -, -, -, hkept⟩ := hw
    exact hkept.idle
  | truncated i todo =>
    obtain ⟨p, -, -, -, -, hempty⟩ := hw
    exact .inl hempty
  | recorded todo =>
    obtain ⟨p, -, -, hkept⟩ := hw
    exact hkept.idle

theorem words_range (hl : Linear revList h) (hc : h[q]? = some c) :
    words isIfs (range (some (c ++ ['\n']))) = [c] := by
  obtain ⟨hne, hw⟩ := hl.word c (List.mem_of_getElem? hc)
  exact words_append_cons hne hw rfl

/-- A go starts with the commit that the file names. -/
theorem revList_saved (hl : Linear revList h) (hs : Saved h file q) (n : ℕ) :
    revList n (words isIfs (range file)) = (h.drop q).take n := by
  rcases hs with ⟨rfl, rfl⟩ | ⟨c, hc, rfl⟩
  · exact hl.master n
  · rw [words_range hl hc]
    exact hl.commit n q c hc

theorem Where.started (hl : Linear revList h) (hw : Where h done k file .idle) :
    Where h done k file (.loop (revList maxCount (words isIfs (range file)))) := by
  rcases hw with rfl | ⟨q, hsaved, hfar, hlt⟩
  · exact .inl ⟨rfl, hl.none _⟩
  · refine .inr ⟨q, hfar, ⟨maxCount, revList_saved hl hsaved _, ?_⟩,
      .inr ⟨q, hsaved, hfar, hlt, .inl rfl⟩⟩
    have hstart := hfar.start
    have hbatch := batch_succ done
    have hpos := maxCount_pos
    omega

/-- One more commit is checked out, or one of the last two again. -/
theorem Where.checkout (hw : Where h done k file (.loop (i :: todo))) :
    ∃ k', (∀ c, c ∈ h.take k' ↔ c ∈ h.take k ∨ c = i) ∧
      Where h done k' file (.checkedOut i todo) := by
  rcases hw with ⟨-, hnil⟩ | ⟨p, hfar, ⟨r, htodo, hend⟩, hkept⟩
  · cases hnil
  · cases hr : r with
    | zero =>
      rw [hr, List.take_zero] at htodo
      cases htodo
    | succ r =>
      subst hr
      have hp : p < h.length := by
        by_contra hge
        rw [List.drop_eq_nil_of_le (Nat.le_of_not_lt hge), List.take_nil] at htodo
        cases htodo
      rw [List.drop_eq_getElem_cons hp, List.take_succ_cons] at htodo
      obtain ⟨rfl, rfl⟩ := List.cons.inj htodo
      have hi : h[p]? = some h[p] := List.getElem?_eq_getElem hp
      refine ⟨max k (p + 1), ?_, p, hi, by omega, hfar.mono, ⟨r, rfl, by omega⟩, ?_⟩
      · intro c
        rcases Nat.lt_or_ge p k with hpk | hkp
        · rw [Nat.max_eq_left hpk]
          refine ⟨.inl, fun hc => hc.elim id ?_⟩
          rintro rfl
          exact List.mem_take_iff_getElem.mpr ⟨p, by omega, rfl⟩
        · obtain rfl : p = k := Nat.le_antisymm hfar.le hkp
          rw [Nat.max_eq_right (Nat.le_succ p), List.take_add_one, hi, List.mem_append]
          simp
      · rcases hkept with hempty | ⟨q, hsaved, hq, hlt, hpq⟩
        · exact .inl hempty
        · obtain ⟨hle, hnear, hstart, hall⟩ := hq
          refine .inr ⟨q, hsaved, ⟨by omega, by omega, hstart, by omega⟩, ?_, hpq⟩
          intro hne
          have := hlt hne
          omega

theorem Where.finished (hw : Where h done k file (.loop [])) : Where h (done + 1) k file .idle := by
  rcases hw with ⟨hempty, -⟩ | ⟨p, hfar, ⟨r, htodo, hend⟩, hkept⟩
  · exact .inl hempty
  · have hover : batch (done + 1) + 1 ≤ p ∨ h.length ≤ p := by
      rcases List.take_eq_nil_iff.mp htodo.symm with rfl | hdrop
      · exact hend
      · exact .inr (List.drop_eq_nil_iff.mp hdrop)
    rcases hkept with hempty | ⟨q, hsaved, hq, hlt, hpq⟩
    · exact .inl hempty
    · have hpk := hfar.le
      exact .inr ⟨q, hsaved, ⟨hq.le, hq.near, by omega, by omega⟩, hlt⟩

theorem Inv.step (hl : Linear revList h) (hi : Inv h done s) (hst : Step revList s a t) :
    Inv h (if a = .finish then done + 1 else done) t := by
  obtain ⟨k, hvisited, hw⟩ := hi
  cases hst with
  | start =>
    refine ⟨k, ?_, hw.started hl⟩
    intro c
    rw [visited_concat]
    simpa [Call.commit] using hvisited c
  | @checkout file i todo synci log =>
    obtain ⟨k', hk', hw'⟩ := hw.checkout
    refine ⟨k', ?_, hw'⟩
    intro c
    rw [visited_concat, List.mem_append, hvisited, hk']
    simp [Call.commit]
  | truncate =>
    obtain ⟨p, hp, hpk, hfar, hahead, -⟩ := hw
    exact ⟨k, hvisited, p, hp, hpk, hfar, hahead, rfl⟩
  | write =>
    obtain ⟨p, hp, hpk, hfar, hahead, -⟩ := hw
    refine ⟨k, hvisited, p + 1, hfar.next hpk, hahead, .inr ⟨p, ?_, hfar, fun _ => hpk, .inr rfl⟩⟩
    exact .inr ⟨_, hp, rfl⟩
  | writeFails =>
    obtain ⟨p, -, hpk, hfar, hahead, hempty⟩ := hw
    exact ⟨k, hvisited, p + 1, hfar.next hpk, hahead, .inl hempty⟩
  | sync late =>
    refine ⟨k, ?_, .inr hw⟩
    intro c
    rw [visited_concat]
    simpa [Call.commit] using hvisited c
  | noSync early => exact ⟨k, hvisited, .inr hw⟩
  | finish => exact ⟨k, hvisited, hw.finished⟩
  | kill => exact ⟨k, hvisited, hw.killed⟩

def init : St := ⟨none, .idle, 0, []⟩

theorem init_inv (h : List Word) : Inv h 0 init := by
  refine ⟨0, ?_, .inr ⟨0, .inl ⟨rfl, rfl⟩, ⟨Nat.le_refl 0, Nat.zero_le _, ?_, .inl rfl⟩, ?_⟩⟩
  · intro c
    show c ∈ [] ↔ c ∈ []
    rfl
  · exact .inl (Nat.le_of_eq batch_zero)
  · exact fun hne => absurd rfl hne

theorem Run.resumes (hl : Linear revList h) (hr : Run (Step revList) init tr s) :
    Inv h (finished tr) s := by
  induction hr with
  | nil => exact init_inv h
  | @snoc tr t a u _ hst ih =>
    have hcount : finished (tr ++ [(t, a, u)]) =
        if a = .finish then finished tr + 1 else finished tr := by
      unfold finished
      rw [List.countP_append, List.countP_singleton]
      by_cases ha : a = .finish
      · simp [ha]
      · simp [ha]
    rw [hcount]
    exact ih.step hl hst

theorem unsynced_concat (log : List Call) (x : Call) : unsynced (log ++ [x]) = match x with
    | .checkout _ => unsynced log + 1
    | _ => 0 := by
  unfold unsynced
  rw [List.foldl_append]
  rfl

/-- `synci` counts the checkouts since the last sync, and one more after the first sync. -/
structure Counts (s : St) : Prop where
  synci : s.synci ≤ 101
  since : unsynced s.log ≤ match s.pc with
    | .idle => 102
    | .loop _ => s.synci
    | _ => s.synci + 1

theorem Counts.step (hc : Counts s) (hst : Step revList s a t) : Counts t := by
  obtain ⟨hsynci, hunsynced⟩ := hc
  cases hst with
  | start => exact ⟨Nat.zero_le _, by rw [unsynced_concat]⟩
  | checkout => exact ⟨hsynci, by rw [unsynced_concat]; exact Nat.succ_le_succ hunsynced⟩
  | truncate => exact ⟨hsynci, hunsynced⟩
  | write => exact ⟨hsynci, hunsynced⟩
  | writeFails => exact ⟨hsynci, hunsynced⟩
  | sync late => exact ⟨Nat.succ_pos 100, by rw [unsynced_concat]; exact Nat.zero_le _⟩
  | noSync early => exact ⟨Nat.succ_le_succ (Nat.le_of_not_lt early), hunsynced⟩
  | finish => exact ⟨hsynci, Nat.le_trans hunsynced (Nat.le_succ_of_le hsynci)⟩
  | @kill file pc synci log =>
    refine ⟨hsynci, ?_⟩
    have hle : unsynced log ≤ max 102 (synci + 1) := by
      cases pc with
      | idle => exact Nat.le_trans hunsynced (Nat.le_max_left _ _)
      | loop todo => exact Nat.le_trans (Nat.le_succ_of_le hunsynced) (Nat.le_max_right _ _)
      | _ => exact Nat.le_trans hunsynced (Nat.le_max_right _ _)
    exact Nat.le_trans hle (Nat.max_le.mpr ⟨Nat.le_refl _, Nat.succ_le_succ hsynci⟩)

/-- An empty file is no revision. -/
theorem Linear.lost (hl : Linear revList h) (hr : Run (Step revList) s tr t)
    (hpc : s.pc = .idle) (hfile : s.file = some []) : visited t.log = visited s.log := by
  let Lost (u : St) : Prop :=
    u.file = some [] ∧ (u.pc = .idle ∨ u.pc = .loop []) ∧ visited u.log = visited s.log
  have hlost : Lost t := by
    apply hr.inv _ (show Lost s from ⟨hfile, .inl hpc, rfl⟩)
    intro u a v hu hst
    obtain ⟨hempty, hidle, hlog⟩ := hu
    cases hst with
    | start =>
      obtain rfl : _ = some [] := hempty
      refine ⟨rfl, .inr (congrArg Pc.loop (hl.none _)), ?_⟩
      rw [← hlog, visited_concat]
      exact List.append_nil _
    | finish => exact ⟨hempty, .inl rfl, hlog⟩
    | kill => exact ⟨hempty, .inl rfl, hlog⟩
    | _ =>
      rcases hidle with hidle | hidle
      · cases hidle
      · cases hidle
  exact hlost.2.2

/-- The script is killed anywhere and started again, as often as one likes.  What was checked out is
the newest part of the history; the file names the last or the last but one of it; a go that comes
to its end goes on from there.  Only when the file is left empty nothing more is ever done. -/
theorem resumed (hl : Linear revList h) (hr : Run (Step revList) init tr s) :
    (∃ k, ∀ c, c ∈ visited s.log ↔ c ∈ h.take k) ∧
      (s.file ≠ some [] → finished tr ≠ 0 →
        ∀ c ∈ h.take (batch (finished tr) + 1), c ∈ visited s.log) ∧
      (s.pc = .idle → s.file ≠ some [] → ∃ q, Saved h s.file q ∧
        (s.file ≠ none → ∀ c ∈ h.take (q + 1), c ∈ visited s.log) ∧
        ∀ c ∈ visited s.log, c ∈ h.take (q + 2)) ∧
      (s.pc = .idle → s.file = some [] → ∀ tr' t, Run (Step revList) s tr' t →
        visited t.log = visited s.log) ∧
      unsynced s.log ≤ 102 := by
  obtain ⟨k, hvisited, hw⟩ := Run.resumes hl hr
  refine ⟨⟨k, hvisited⟩, ?_, ?_, ?_, ?_⟩
  · intro hne hdone c hc
    rw [hvisited]
    rcases hw.killed with hempty | ⟨q, -, hfar, -⟩
    · exact absurd hempty hne
    · rcases hfar.all with hzero | hle | hall
      · exact absurd hzero hdone
      · exact List.take_subset_take_left h hle hc
      · rw [List.take_of_length_le hall]
        exact List.mem_of_mem_take hc
  · intro hpc hne
    rw [hpc] at hw
    rcases hw with hempty | ⟨q, hsaved, hfar, hlt⟩
    · exact absurd hempty hne
    · refine ⟨q, hsaved, ?_, ?_⟩
      · intro hfile c hc
        rw [hvisited]
        exact List.take_subset_take_left h (hlt hfile) hc
      · intro c hc
        exact List.take_subset_take_left h hfar.near ((hvisited c).mp hc)
  · intro hpc hempty tr' t hr'
    exact hl.lost hr' hpc hempty
  · have hcounts : Counts s :=
      hr.inv (fun _ _ _ hc hst => hc.step hst) ⟨Nat.zero_le _, Nat.zero_le _⟩
    obtain ⟨hsynci, hunsynced⟩ := hcounts
    cases hpc : s.pc <;> rw [hpc] at hunsynced <;> dsimp only at hunsynced <;> omega

end

/-! killed once, then to the end of a history of two commits -/

section Examples

def twoCommits (n : ℕ) : List Word → List Word
  | [] => []
  | c :: _ => if c = "master".toList then [['b'], ['a']].take n
    else ([['b'], ['a']].dropWhile fun d => d ≠ c).take n

theorem twoCommits_linear : Linear twoCommits [['b'], ['a']] := by
  refine ⟨fun _ => rfl, fun _ => rfl, ?_, ?_⟩
  · intro n q c hc
    match q with
    | 0 =>
      cases hc
      rfl
    | 1 =>
      cases hc
      rfl
    | q + 2 => cases hc
  · intro c hc
    simp only [List.mem_cons, List.not_mem_nil, or_false] at hc
    rcases hc with rfl | rfl
    · exact ⟨List.cons_ne_nil _ _, List.forall_mem_singleton.mpr rfl⟩
    · exact ⟨List.cons_ne_nil _ _, List.forall_mem_singleton.mpr rfl⟩

theorem resumed_two : ∃ tr s, Run (Step twoCommits) init tr s ∧ tr.length = 13 ∧
    ∀ c ∈ [['b'], ['a']].take (batch (finished tr) + 1), c ∈ visited s.log := by
  have h0 := (@Run.nil _ _ (Step twoCommits) init).snoc .start
  have h1 := (h0.snoc .checkout).snoc .kill
  have h2 := ((h1.snoc .start).snoc .checkout).snoc .truncate
  have h3 := (((h2.snoc .write).snoc (.noSync (by decide))).snoc .checkout).snoc .truncate
  have h4 := ((h3.snoc .write).snoc (.noSync (by decide))).snoc .finish
  refine ⟨_, _, h4, rfl, ?_⟩
  exact (resumed twoCommits_linear h4).2.1 nofun (by decide)

end Examples

end StressGitFullCo
