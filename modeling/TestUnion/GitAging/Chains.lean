import TestUnion.Decimal
import TestUnion.Interleaved

/-!
# stress-git-aging2: the snapshot chains

For each `p` the script makes `stress/p-0` a snapshot of `stress/0` and starts a worker.  Round `r` of
worker `p` makes `stress/p-r` a snapshot of `stress/p-(r-1)` and checks out a commit in it.

* `Env`             the options, the commits that `rev-list` lists, and what the commands of each round
                    do, those that fail included;
* `chain`           what is in the directories of a worker when their rounds are over;
* `Pc`, `Work`      where worker `p` is, and its next step; it can be killed at any time;
* `Started`         `stress` has the directory `0`, and none of the workers;
* `chains_built`    whatever the order of the workers, `stress/0` stays as it is, every directory of a
                    chain is what the rounds before it make of `stress/0`, no later one exists, and a
                    worker that has ended has made the number of rounds that was asked for.

The two commands of the main loop for `p` are the first ones of worker `p` here, so that they may come
in any order.  When a snapshot has failed, `cd` fails too, and the round goes on in the directory that the
script was started in, which is neither in `stress` nor above it.
-/

namespace GitAging2

open Interleaved Lts

abbrev Word := List Char

abbrev Path := List Word

section
variable {ν κ : Type*}

/-- The nodes of the file system are `ν`, and the commits `κ`.  A command is given by the number of the
worker and the number of the round that it belongs to. -/
structure Env (ν κ : Type*) where
  /-- `$mountpoint/stress` -/
  stress : Path
  maxrounds : ℤ
  /-- the lines of a file -/
  lines : Option ν → List κ
  snapFails : ℕ → ℕ → Bool
  rmFails : ℕ → ℕ → Bool
  touchFails : ℕ → ℕ → Bool
  /-- what `git checkout -f` leaves, whether it succeeds or not -/
  checkout : ℕ → ℕ → κ → (Path → Option ν) → Path → Option ν
  /-- the directory itself stays -/
  checkout_root : ∀ p round head t, t [] ≠ none → checkout p round head t [] ≠ none
  /-- the empty file of `touch` -/
  empty : ν

variable (e : Env ν κ) (p : ℕ)

/-- `$mountpoint/stress/0` -/
def Env.zero : Path := e.stress ++ [['0']]

/-- `$mountpoint/stress/$p-$round` -/
def Env.dir (p round : ℕ) : Path := e.stress ++ [Nat.toDigits 10 p ++ '-' :: Nat.toDigits 10 round]

def lock : Path := [".git".toList, "index.lock".toList]

/-- there is nothing, not even the directory -/
def nothing : Path → Option ν := fun _ => none

/-- `rm -f .git/index.lock` -/
def unlock (round : ℕ) (t : Path → Option ν) : Path → Option ν :=
  if e.rmFails p round then t else Function.update t lock none

/-- `touch init-done` -/
def touch (round : ℕ) (t : Path → Option ν) : Path → Option ν :=
  if t ["init-done".toList] = none ∧ e.touchFails p round = false then
    Function.update t ["init-done".toList] (some e.empty)
  else t

/-- the snapshot of a tree, before git works in it -/
def snapped (round : ℕ) (t : Path → Option ν) : Path → Option ν :=
  unlock e p round (if e.snapFails p round then nothing else t)

/-- what is in `stress/$p-$round` when the round is over -/
def chain (Z : Path → Option ν) (heads : List κ) : ℕ → Path → Option ν
  | 0 => snapped e p 0 Z
  | k + 1 =>
    let t := snapped e p (k + 1) (chain Z heads k)
    match heads[k]?, t [] with
    | some head, some _ => touch e p (k + 1) (e.checkout p (k + 1) head t)
    | _, _ => t

/-! ## the workers -/

/-- A pass of the loop has the lines that it goes through and the number of the round; `git checkout`
has the tree that it began with.  `away` is a round whose `cd` has failed, and `killed` has the number
of directories that the worker had finished. -/
inductive Pc (ν κ : Type*) where
  | snapZero
  | unlockZero
  | shuf
  | read (heads : List κ) (round : ℕ)
  | unlock (heads : List κ) (round : ℕ)
  | checkout (heads : List κ) (round : ℕ) (tree : Path → Option ν)
  | touch (heads : List κ) (round : ℕ)
  | away (heads : List κ) (round : ℕ)
  | test (heads : List κ) (round : ℕ)
  | done (heads : List κ) (rounds : ℕ)
  | killed (heads : List κ) (finished : ℕ)

/-- `btrfs subvol snap $source $dest`: below a directory that exists the snapshot gets the name of the
source. -/
inductive Snap (fails : Bool) (source dest : Path) (m m' : Path → Option ν) : Prop
  | fails (no : fails = true ∨ m source = none) (same : m' = m)
  | makes (ok : fails = false) (ex : m source ≠ none) (new : m dest = none)
      (tree : sub m' dest = sub m source) (rest : ∀ q, ¬ dest <+: q → m' q = m q)
  | nested (ok : fails = false) (ex : m source ≠ none) (old : m dest ≠ none)
      (rest : ∀ q, ¬ dest <+: q → m' q = m q)

/-- the tree at a path is replaced -/
def Becomes (p : Path) (t : Path → Option ν) (m m' : Path → Option ν) : Prop :=
  sub m' p = t ∧ ∀ q, ¬ p <+: q → m' q = m q

/-- the lines, and the number of the directories that are finished -/
def Pc.finished : Pc ν κ → List κ × ℕ
  | .snapZero => ([], 0)
  | .unlockZero => ([], 0)
  | .shuf => ([], 0)
  | .read heads round => (heads, round)
  | .unlock heads round => (heads, round)
  | .checkout heads round _ => (heads, round)
  | .touch heads round => (heads, round)
  | .away heads round => (heads, round)
  | .test heads round => (heads, round + 1)
  | .done heads rounds => (heads, rounds + 1)
  | .killed heads finished => (heads, finished)

def Pc.running : Pc ν κ → Bool
  | .done _ _ => false
  | .killed _ _ => false
  | _ => true

inductive Work : Pc ν κ → (Path → Option ν) → Pc ν κ → (Path → Option ν) → Prop
  | snapZero {m m'} (snap : Snap (e.snapFails p 0) e.zero (e.dir p 0) m m') :
    Work .snapZero m .unlockZero m'
  | unlockZero {m m'} (rm : Becomes (e.dir p 0) (unlock e p 0 (sub m (e.dir p 0))) m m') :
    Work .unlockZero m .shuf m'
  | shuf {m heads} (perm : heads.Perm (e.lines (m (e.zero ++ ["rev-list".toList])))) :
    Work .shuf m (.read heads 1) m
  | read {m m' heads round} (more : round ≤ heads.length)
      (snap : Snap (e.snapFails p round) (e.dir p (round - 1)) (e.dir p round) m m') :
    Work (.read heads round) m (.unlock heads round) m'
  | eof {m heads round} (none : heads.length < round) :
    Work (.read heads round) m (.done heads (round - 1)) m
  | unlock {m m' heads round}
      (rm : Becomes (e.dir p round) (unlock e p round (sub m (e.dir p round))) m m')
      (cd : m' (e.dir p round) ≠ none) :
    Work (.unlock heads round) m (.checkout heads round (sub m' (e.dir p round))) m'
  | cdFails {m m' heads round}
      (rm : Becomes (e.dir p round) (unlock e p round (sub m (e.dir p round))) m m')
      (no : m' (e.dir p round) = none) : Work (.unlock heads round) m (.away heads round) m'
  | checking {m m' heads round tree} (rest : ∀ q, ¬ e.dir p round <+: q → m' q = m q) :
    Work (.checkout heads round tree) m (.checkout heads round tree) m'
  | checkout {m m' heads round tree head} (get : heads[round - 1]? = some head)
      (git : Becomes (e.dir p round) (e.checkout p round head tree) m m') :
    Work (.checkout heads round tree) m (.touch heads round) m'
  | touch {m m' heads round}
      (make : Becomes (e.dir p round) (touch e p round (sub m (e.dir p round))) m m') :
    Work (.touch heads round) m (.test heads round) m'
  | away {m heads round} : Work (.away heads round) m (.test heads round) m
  | next {m heads} {round : ℕ} (le : (round : ℤ) + 1 ≤ e.maxrounds) :
    Work (.test heads round) m (.read heads (round + 1)) m
  | break {m heads} {round : ℕ} (gt : e.maxrounds < (round : ℤ) + 1) :
    Work (.test heads round) m (.done heads round) m
  | kill {m c} (running : c.running = true) : Work c m (.killed c.finished.1 c.finished.2) m
  -- a command that the worker had started may still be running
  | late {m m' heads round} (rest : ∀ q, ¬ e.dir p round <+: q → m' q = m q) :
    Work (.killed heads round) m (.killed heads round) m'

/-- No directory of a worker is left from an earlier run. -/
structure Started (Z : Path → Option ν) (s : Shared ℕ (Pc ν κ) Path (Option ν)) : Prop where
  zero : sub s.mem e.zero = Z
  root : Z [] ≠ none
  fresh : ∀ p k r, s.mem (e.dir p k ++ r) = none
  pc : ∀ p, s.pc p = .snapZero

end

/-! ## footprints -/

section
variable {ν κ : Type*} {e : Env ν κ} {p p' k k' : ℕ} {q r : Path} {m m' : Path → Option ν}
  {Z : Path → Option ν}

theorem dir_name_inj (h : Nat.toDigits 10 p ++ '-' :: Nat.toDigits 10 k
    = Nat.toDigits 10 p' ++ '-' :: Nat.toDigits 10 k') : p = p' ∧ k = k' := by
  obtain ⟨hp, hk⟩ := split_at_sep (minus_notMem_toDigits p) (minus_notMem_toDigits p') h
  exact ⟨toDigits_inj hp, toDigits_inj hk⟩

theorem dir_apart (h : p ≠ p' ∨ k ≠ k') : Apart (e.dir p k) (e.dir p' k') := by
  apply apart_concat
  intro heq
  obtain ⟨rfl, rfl⟩ := dir_name_inj heq
  rcases h with h | h <;> exact h rfl

theorem zero_apart (p k : ℕ) : Apart e.zero (e.dir p k) := by
  apply apart_concat
  intro heq
  have hmem : '-' ∈ ['0'] := by
    rw [heq]
    simp
  exact absurd hmem (by decide)

/-- the directories of the chain of worker `p` -/
def own (e : Env ν κ) (p : ℕ) : Set Path := {q | ∃ k, e.dir p k <+: q}

theorem zero_not_own (r : Path) : e.zero ++ r ∉ own e p := by
  intro h
  obtain ⟨k, hk⟩ := h
  exact (zero_apart p k).symm.not_under r hk

theorem own_dir (k : ℕ) (r : Path) : e.dir p k ++ r ∈ own e p := ⟨k, List.prefix_append _ _⟩

theorem Snap.frame {fails : Bool} {source dest : Path} (h : Snap fails source dest m m')
    (hq : ¬ dest <+: q) : m' q = m q := by
  cases h with
  | fails no same => rw [same]
  | makes ok ex new tree rest => exact rest q hq
  | nested ok ex old rest => exact rest q hq

/-- one step changes one directory of the chain -/
theorem Work.frame {c c' : Pc ν κ} (h : Work e p c m c' m') :
    ∃ k, ∀ q, ¬ e.dir p k <+: q → m' q = m q := by
  cases h with
  | snapZero snap => exact ⟨0, fun q hq => snap.frame hq⟩
  | unlockZero rm => exact ⟨0, rm.2⟩
  | @read _ _ _ round more snap => exact ⟨round, fun q hq => snap.frame hq⟩
  | @unlock _ _ _ round rm cd => exact ⟨round, rm.2⟩
  | @cdFails _ _ _ round rm no => exact ⟨round, rm.2⟩
  | @checking _ _ _ round _ rest => exact ⟨round, rest⟩
  | @checkout _ _ _ round _ _ get git => exact ⟨round, git.2⟩
  | @touch _ _ _ round make => exact ⟨round, make.2⟩
  | @late _ _ _ round rest => exact ⟨round, rest⟩
  | _ => exact ⟨0, fun _ _ => rfl⟩

theorem footprint (e : Env ν κ) : Footprint (own e) (Work e) := by
  refine ⟨?_, ?_⟩
  · intro p p' q hne hq hq'
    obtain ⟨k, t, rfl⟩ := hq
    obtain ⟨k', hk'⟩ := hq'
    exact (dir_apart (.inl hne.symm)).not_under t hk'
  · intro p c m c' m' hw q hq
    obtain ⟨k, hk⟩ := hw.frame
    exact hk q fun h => hq ⟨k, h⟩

/-! ## the trees of a chain -/

variable {heads : List κ} {n : ℕ} {t : Path → Option ν} {c c' : Pc ν κ}

@[simp]
theorem nothing_apply (r : Path) : (nothing : Path → Option ν) r = none := rfl

@[simp]
theorem unlock_root (round : ℕ) : unlock e p round t [] = t [] := by
  unfold unlock
  split
  · rfl
  · exact Function.update_of_ne (List.cons_ne_nil _ _).symm _ _

theorem unlock_nothing (round : ℕ) : unlock e p round nothing = nothing := by
  unfold unlock
  split
  · rfl
  · exact Function.update_eq_self _ _

@[simp]
theorem touch_root (round : ℕ) : touch e p round t [] = t [] := by
  unfold touch
  split
  · exact Function.update_of_ne (List.cons_ne_nil _ _).symm _ _
  · rfl

/-- A tree without its directory has nothing else. -/
def Rooted (t : Path → Option ν) : Prop := t [] = none → t = nothing

theorem rooted_of_root (h : t [] ≠ none) : Rooted t := fun hnone => absurd hnone h

theorem snapped_root (round : ℕ) :
    snapped e p round t [] ≠ none ↔ t [] ≠ none ∧ e.snapFails p round = false := by
  unfold snapped
  cases e.snapFails p round <;> simp

theorem Rooted.snapped (h : Rooted t) (round : ℕ) : Rooted (snapped e p round t) := by
  unfold Rooted GitAging2.snapped
  rw [unlock_root]
  cases e.snapFails p round with
  | true => exact fun _ => unlock_nothing round
  | false =>
    intro hnone
    have ht := h hnone
    subst ht
    exact unlock_nothing round

theorem chain_zero : chain e p Z heads 0 = snapped e p 0 Z := rfl

theorem chain_succ {head : κ} (hget : heads[n]? = some head)
    (h : snapped e p (n + 1) (chain e p Z heads n) [] ≠ none) :
    chain e p Z heads (n + 1) = touch e p (n + 1)
      (e.checkout p (n + 1) head (snapped e p (n + 1) (chain e p Z heads n))) := by
  obtain ⟨x, hx⟩ := Option.ne_none_iff_exists'.mp h
  rw [chain]
  simp only [hget, hx]

theorem chain_succ_away (h : snapped e p (n + 1) (chain e p Z heads n) [] = none) :
    chain e p Z heads (n + 1) = snapped e p (n + 1) (chain e p Z heads n) := by
  rw [chain]
  simp only [h]
  cases heads[n]? <;> rfl

theorem chain_rooted (hroot : Z [] ≠ none) : Rooted (chain e p Z heads n) := by
  induction n with
  | zero => exact (rooted_of_root hroot).snapped 0
  | succ n ih =>
    by_cases h : snapped e p (n + 1) (chain e p Z heads n) [] = none
    · rw [chain_succ_away h]
      exact ih.snapped (n + 1)
    · cases hget : heads[n]? with
      | none =>
        rw [chain, hget]
        exact ih.snapped (n + 1)
      | some head =>
        rw [chain_succ hget h]
        apply rooted_of_root
        rw [touch_root]
        exact e.checkout_root _ _ _ _ h

/-- A directory is made unless its snapshot or one before it fails. -/
theorem chain_root (hroot : Z [] ≠ none) :
    chain e p Z heads n [] ≠ none ↔ ∀ j ≤ n, e.snapFails p j = false := by
  have hstep (n : ℕ) : chain e p Z heads (n + 1) [] ≠ none ↔
      snapped e p (n + 1) (chain e p Z heads n) [] ≠ none := by
    by_cases h : snapped e p (n + 1) (chain e p Z heads n) [] = none
    · rw [chain_succ_away h]
    · cases hget : heads[n]? with
      | none => rw [chain, hget]
      | some head =>
        rw [chain_succ hget h, touch_root]
        exact iff_of_true (e.checkout_root _ _ _ _ h) h
  induction n with
  | zero =>
    rw [chain_zero, snapped_root]
    simp [hroot]
  | succ n ih =>
    rw [hstep, snapped_root]
    refine ⟨?_, ?_⟩
    · rintro ⟨hne, hlast⟩ j hj
      rcases Nat.lt_succ_iff_lt_or_eq.mp (Nat.lt_succ_of_le hj) with hlt | rfl
      · exact ih.mp hne j (Nat.le_of_lt_succ hlt)
      · exact hlast
    · exact fun h => ⟨ih.mpr fun j hj => h j (Nat.le_succ_of_le hj), h _ (Nat.le_refl _)⟩

/-! ## what a worker has built -/

/-- The directories below `n` are finished, and those from `n` on do not exist, but for the directory
`n` itself when it is being worked on. -/
structure Built (e : Env ν κ) (Z : Path → Option ν) (p : ℕ) (heads : List κ) (n : ℕ)
    (m : Path → Option ν) : Prop where
  done : ∀ k < n, sub m (e.dir p k) = chain e p Z heads k
  later : ∀ k, n < k → ∀ r, m (e.dir p k ++ r) = none

/-- what is in the directory `n` -/
def At (e : Env ν κ) (p : ℕ) (n : ℕ) (t : Path → Option ν) (m : Path → Option ν) : Prop :=
  sub m (e.dir p n) = t

/-- The round has a line, and the limit lets it begin. -/
structure InLoop (e : Env ν κ) (heads : List κ) (round : ℕ) : Prop where
  pos : 1 ≤ round
  limit : round = 1 ∨ (round : ℤ) ≤ e.maxrounds
  le : round ≤ heads.length

def Holds (e : Env ν κ) (Z : Path → Option ν) (p : ℕ) (m : Path → Option ν) : Pc ν κ → Prop
  | .snapZero => ∀ k r, m (e.dir p k ++ r) = none
  | .unlockZero => Built e Z p [] 0 m ∧ At e p 0 (if e.snapFails p 0 then nothing else Z) m
  | .shuf => Built e Z p [] 0 m ∧ At e p 0 (snapped e p 0 Z) m
  | .read heads round => (1 ≤ round ∧ (round = 1 ∨ (round : ℤ) ≤ e.maxrounds) ∧
      round ≤ heads.length + 1) ∧ Built e Z p heads round m ∧ At e p round nothing m
  | .unlock heads round => InLoop e heads round ∧ Built e Z p heads round m ∧
      At e p round (if e.snapFails p round then nothing else chain e p Z heads (round - 1)) m
  | .checkout heads round tree => InLoop e heads round ∧ Built e Z p heads round m ∧
      tree = snapped e p round (chain e p Z heads (round - 1)) ∧ tree [] ≠ none
  | .touch heads round => InLoop e heads round ∧ Built e Z p heads round m ∧
      ∃ head, heads[round - 1]? = some head ∧
        snapped e p round (chain e p Z heads (round - 1)) [] ≠ none ∧
        At e p round
          (e.checkout p round head (snapped e p round (chain e p Z heads (round - 1)))) m
  | .away heads round => InLoop e heads round ∧ Built e Z p heads round m ∧
      At e p round (chain e p Z heads round) m
  | .test heads round => InLoop e heads round ∧ Built e Z p heads (round + 1) m ∧
      At e p (round + 1) nothing m
  | .done heads rounds => (rounds : ℤ) = min (heads.length : ℤ) (max 1 e.maxrounds) ∧
      Built e Z p heads (rounds + 1) m ∧ At e p (rounds + 1) nothing m
  | .killed heads finished => Built e Z p heads finished m

/-- the lines that a worker goes through -/
def Pc.lines : Pc ν κ → Option (List κ)
  | .read heads _ => some heads
  | .unlock heads _ => some heads
  | .checkout heads _ _ => some heads
  | .touch heads _ => some heads
  | .away heads _ => some heads
  | .test heads _ => some heads
  | .done heads _ => some heads
  | _ => none

structure Inv (e : Env ν κ) (Z : Path → Option ν) (p : ℕ) (c : Pc ν κ) (m : Path → Option ν) :
    Prop where
  zero : sub m e.zero = Z
  perm : ∀ heads, c.lines = some heads → heads.Perm (e.lines (Z ["rev-list".toList]))
  holds : Holds e Z p m c

theorem Built.congr (h : Built e Z p heads n m) (hm : ∀ k r, m' (e.dir p k ++ r) = m (e.dir p k ++ r)) :
    Built e Z p heads n m' :=
  ⟨fun k hk => (funext (hm k)).trans (h.done k hk), fun k hk r => (hm k r).trans (h.later k hk r)⟩

theorem At.congr (h : At e p n t m) (hm : ∀ k r, m' (e.dir p k ++ r) = m (e.dir p k ++ r)) :
    At e p n t m' :=
  (funext (hm n)).trans h

theorem Holds.congr (h : Holds e Z p m c)
    (hm : ∀ k r, m' (e.dir p k ++ r) = m (e.dir p k ++ r)) : Holds e Z p m' c := by
  cases c with
  | snapZero => exact fun k r => (hm k r).trans (h k r)
  | unlockZero => exact ⟨h.1.congr hm, h.2.congr hm⟩
  | shuf => exact ⟨h.1.congr hm, h.2.congr hm⟩
  | read heads round => exact ⟨h.1, h.2.1.congr hm, h.2.2.congr hm⟩
  | unlock heads round => exact ⟨h.1, h.2.1.congr hm, h.2.2.congr hm⟩
  | checkout heads round tree => exact ⟨h.1, h.2.1.congr hm, h.2.2⟩
  | touch heads round =>
    obtain ⟨hin, hb, head, hget, hne, hat⟩ := h
    exact ⟨hin, hb.congr hm, head, hget, hne, hat.congr hm⟩
  | away heads round => exact ⟨h.1, h.2.1.congr hm, h.2.2.congr hm⟩
  | test heads round => exact ⟨h.1, h.2.1.congr hm, h.2.2.congr hm⟩
  | done heads rounds => exact ⟨h.1, h.2.1.congr hm, h.2.2.congr hm⟩
  | killed heads finished => exact h.congr hm

theorem Inv.blind (p : ℕ) (c : Pc ν κ) : Blind (own e) p (Inv e Z p c) := by
  intro m m' hm h
  refine ⟨?_, h.perm, h.holds.congr ?_⟩
  · rw [← h.zero]
    exact funext fun r => hm _ fun j _ => zero_not_own r
  · exact fun k r => hm _ fun j hj => (footprint e).apart p j _ hj.symm (own_dir k r)

/-- Work in the directory `n` leaves the others alone. -/
theorem Built.step (h : Built e Z p heads n m) (rest : ∀ q, ¬ e.dir p n <+: q → m' q = m q) :
    Built e Z p heads n m' := by
  have hrest {k : ℕ} (hk : k ≠ n) (r : Path) : m' (e.dir p k ++ r) = m (e.dir p k ++ r) :=
    rest _ ((dir_apart (.inr hk.symm)).not_under r)
  refine ⟨?_, ?_⟩
  · intro k hk
    rw [← h.done k hk]
    exact funext (hrest (Nat.ne_of_lt hk))
  · intro k hk r
    rw [hrest (Nat.ne_of_gt hk) r, h.later k hk r]

/-- The directory `n` is finished. -/
theorem Built.succ (h : Built e Z p heads n m) (hn : At e p n (chain e p Z heads n) m) :
    Built e Z p heads (n + 1) m ∧ At e p (n + 1) nothing m := by
  refine ⟨⟨?_, fun k hk r => h.later k (by omega) r⟩, ?_⟩
  · intro k hk
    rcases Nat.lt_succ_iff_lt_or_eq.mp hk with hlt | rfl
    · exact h.done k hlt
    · exact hn
  · exact funext (h.later (n + 1) (Nat.lt_succ_self n))

/-- A worker that is killed has finished all directories but the one that it works on. -/
theorem Holds.killed (h : Holds e Z p m c) : Built e Z p c.finished.1 c.finished.2 m := by
  cases c with
  | snapZero => exact ⟨nofun, fun k _ r => h k r⟩
  | unlockZero => exact h.1
  | shuf => exact h.1
  | killed heads finished => exact h
  | _ => exact h.2.1

/-- A snapshot of a tree to a path that is free. -/
theorem Snap.at {fails : Bool} {source dest : Path} (h : Snap fails source dest m m')
    (hsource : sub m source = t) (ht : Rooted t) (hdest : sub m dest = nothing) :
    sub m' dest = (if fails then nothing else t) ∧ ∀ q, ¬ dest <+: q → m' q = m q := by
  cases h with
  | fails no same =>
    subst same
    refine ⟨?_, fun _ _ => rfl⟩
    rcases no with no | no
    · rw [hdest, no]
      rfl
    · have hnone : t [] = none := by
        rw [← hsource, sub_nil, no]
      rw [hdest, ht hnone, ite_self]
  | makes ok ex new tree rest =>
    rw [ok]
    exact ⟨tree.trans hsource, rest⟩
  | nested ok ex old rest =>
    rw [← sub_nil m dest, hdest] at old
    exact absurd rfl old

/-- The lines are those of `stress/0`. -/
theorem Work.lines (h : Work e p c m c' m') (hl : c'.lines = some heads) :
    c.lines = some heads ∨ heads.Perm (e.lines (m (e.zero ++ ["rev-list".toList]))) := by
  cases h with
  | shuf perm =>
    cases hl
    exact .inr perm
  | snapZero snap => cases hl
  | unlockZero rm => cases hl
  | kill running => cases hl
  | late rest => cases hl
  | _ => exact .inl hl

variable {head : κ} {round : ℕ}

/-- `rm` in the directory of the round -/
theorem Holds.unlock (h : Holds e Z p m (.unlock heads round))
    (rm : Becomes (e.dir p round) (unlock e p round (sub m (e.dir p round))) m m') :
    InLoop e heads round ∧ Built e Z p heads round m' ∧
      sub m' (e.dir p round) = snapped e p round (chain e p Z heads (round - 1)) := by
  obtain ⟨hin, hb, hat⟩ := h
  refine ⟨hin, hb.step rm.2, ?_⟩
  have hat' : sub m (e.dir p round) = _ := hat
  rw [rm.1, hat']
  rfl

/-- The round has a round before it, or the directory 0. -/
theorem InLoop.succ (h : InLoop e heads round) : round - 1 + 1 = round := Nat.sub_add_cancel h.pos

theorem Holds.cdFails (h : Holds e Z p m (.unlock heads round))
    (rm : Becomes (e.dir p round) (GitAging2.unlock e p round (sub m (e.dir p round))) m m')
    (no : m' (e.dir p round) = none) : Holds e Z p m' (.away heads round) := by
  obtain ⟨hin, hb, hsub⟩ := h.unlock rm
  refine ⟨hin, hb, hsub.trans ?_⟩
  have hnone : snapped e p (round - 1 + 1) (chain e p Z heads (round - 1)) [] = none := by
    rw [hin.succ, ← hsub, sub_nil, no]
  have haway := chain_succ_away hnone
  rw [hin.succ] at haway
  exact haway.symm

theorem Holds.checkout {tree : Path → Option ν} (h : Holds e Z p m (.checkout heads round tree))
    (hget : heads[round - 1]? = some head)
    (git : Becomes (e.dir p round) (e.checkout p round head tree) m m') :
    Holds e Z p m' (.touch heads round) := by
  obtain ⟨hin, hb, rfl, hne⟩ := h
  exact ⟨hin, hb.step git.2, head, hget, hne, git.1⟩

theorem Holds.touch (h : Holds e Z p m (.touch heads round))
    (make : Becomes (e.dir p round) (touch e p round (sub m (e.dir p round))) m m') :
    Holds e Z p m' (.test heads round) := by
  obtain ⟨hin, hb, head, hget, hne, hat⟩ := h
  have hat' : sub m (e.dir p round) = _ := hat
  have hchain := chain_succ (e := e) (p := p) (Z := Z) hget
  rw [hin.succ] at hchain
  refine ⟨hin, (hb.step make.2).succ ?_⟩
  show sub m' (e.dir p round) = _
  rw [make.1, hat', hchain hne]

theorem Holds.step (hroot : Z [] ≠ none) (hzero : sub m e.zero = Z) (h : Holds e Z p m c)
    (hw : Work e p c m c' m') : Holds e Z p m' c' := by
  cases hw with
  | snapZero snap =>
    obtain ⟨htree, hrest⟩ := snap.at hzero (rooted_of_root hroot) (funext (h 0))
    have hb : Built e Z p [] 0 m := ⟨nofun, fun k _ r => h k r⟩
    exact ⟨hb.step hrest, htree⟩
  | unlockZero rm =>
    have hat : sub m (e.dir p 0) = _ := h.2
    refine ⟨h.1.step rm.2, ?_⟩
    show sub m' (e.dir p 0) = _
    rw [rm.1, hat]
    rfl
  | @shuf _ heads perm =>
    have hb : Built e Z p heads 0 m := ⟨nofun, h.1.later⟩
    exact ⟨⟨Nat.le_refl 1, .inl rfl, Nat.le_add_left _ _⟩, hb.succ h.2⟩
  | @read _ _ heads round more snap =>
    obtain ⟨⟨h1, h2, -⟩, hb, hat⟩ := h
    obtain ⟨htree, hrest⟩ := snap.at (hb.done (round - 1) (by omega)) (chain_rooted hroot) hat
    exact ⟨⟨h1, h2, more⟩, hb.step hrest, htree⟩
  | @eof _ heads round none =>
    obtain ⟨⟨h1, h2, h3⟩, hb, hat⟩ := h
    have heq : round - 1 + 1 = round := by omega
    refine ⟨?_, by rw [heq]; exact hb, by rw [heq]; exact hat⟩
    rcases h2 with h2 | h2 <;> omega
  | @unlock _ _ heads round rm cd =>
    obtain ⟨hin, hb, hsub⟩ := h.unlock rm
    refine ⟨hin, hb, hsub, ?_⟩
    rw [sub_nil]
    exact cd
  | cdFails rm no => exact h.cdFails rm no
  | checking rest => exact ⟨h.1, h.2.1.step rest, h.2.2⟩
  | checkout get git => exact h.checkout get git
  | touch make => exact h.touch make
  | away => exact ⟨h.1, h.2.1.succ h.2.2⟩
  | @next _ heads round le =>
    obtain ⟨hin, hb⟩ := h
    have hlen := hin.le
    exact ⟨⟨by omega, .inr (by push_cast; exact le), by omega⟩, hb⟩
  | @«break» _ heads round gt =>
    obtain ⟨⟨h1, h2, h3⟩, hb⟩ := h
    refine ⟨?_, hb⟩
    rcases h2 with h2 | h2 <;> omega
  | kill running => exact h.killed
  | late rest => exact Built.step h rest

theorem Inv.step (hroot : Z [] ≠ none) (h : Inv e Z p c m) (hw : Work e p c m c' m') :
    Inv e Z p c' m' := by
  obtain ⟨hzero, hperm, hholds⟩ := h
  refine ⟨?_, ?_, hholds.step hroot hzero hw⟩
  · rw [← hzero]
    exact funext fun r => (footprint e).frame _ _ _ _ _ hw _ (zero_not_own r)
  · intro heads hl
    rcases hw.lines hl with h | h
    · exact hperm heads h
    · rw [← hzero]
      exact h

variable {s s' : Shared ℕ (Pc ν κ) Path (Option ν)}
  {tr : List (Shared ℕ (Pc ν κ) Path (Option ν) × ℕ × Shared ℕ (Pc ν κ) Path (Option ν))}

theorem Started.inv (hs : Started e Z s) (hr : Run (Interleave (Work e)) s tr s') (p : ℕ) :
    Inv e Z p (s'.pc p) s'.mem := by
  apply (footprint e).inv Inv.blind (fun p c m c' m' h hw => h.step hs.root hw) hr
  intro p
  rw [hs.pc p]
  exact ⟨hs.zero, nofun, hs.fresh p⟩

/-- The workers do not come into each other's way: `stress/0` stays as it is, every snapshot is one of
a finished directory to a free name, and a worker that has ended has made the number of rounds that was
asked for, of which there is one at least if there is a commit.  Its directories are finished, those are
there whose snapshot and the ones before it have not failed, and a worker that was killed has left
the directories that it had finished. -/
theorem chains_built (hs : Started e Z s) (hr : Run (Interleave (Work e)) s tr s') :
    sub s'.mem e.zero = Z ∧
    (∀ p heads round, s'.pc p = .read heads round →
      sub s'.mem (e.dir p (round - 1)) = chain e p Z heads (round - 1) ∧
      s'.mem (e.dir p round) = none) ∧
    (∀ p heads rounds, s'.pc p = .done heads rounds →
      heads.Perm (e.lines (Z ["rev-list".toList])) ∧
      (rounds : ℤ) = min (heads.length : ℤ) (max 1 e.maxrounds) ∧
      (∀ k ≤ rounds, sub s'.mem (e.dir p k) = chain e p Z heads k ∧
        (s'.mem (e.dir p k) ≠ none ↔ ∀ j ≤ k, e.snapFails p j = false)) ∧
      ∀ k, rounds < k → ∀ r, s'.mem (e.dir p k ++ r) = none) ∧
    ∀ p heads finished, s'.pc p = .killed heads finished →
      ∀ k < finished, sub s'.mem (e.dir p k) = chain e p Z heads k := by
  have hinv := hs.inv hr
  refine ⟨(hinv 0).zero, ?_, ?_, ?_⟩
  · intro p heads round hp
    have hholds := (hinv p).holds
    rw [hp] at hholds
    obtain ⟨⟨h1, -⟩, hb, hat⟩ := hholds
    refine ⟨hb.done _ (by omega), ?_⟩
    rw [← sub_nil s'.mem, show sub s'.mem (e.dir p round) = nothing from hat]
    rfl
  · intro p heads rounds hp
    have hholds := (hinv p).holds
    have hperm := (hinv p).perm heads (by rw [hp]; rfl)
    rw [hp] at hholds
    obtain ⟨hrounds, hb, hnext⟩ := hholds
    refine ⟨hperm, hrounds, ?_, ?_⟩
    · intro k hk
      have hdone := hb.done k (by omega)
      refine ⟨hdone, ?_⟩
      rw [← sub_nil s'.mem, hdone]
      exact chain_root hs.root
    · intro k hk r
      rcases Nat.lt_or_eq_of_le (Nat.succ_le_of_lt hk) with hlt | rfl
      · exact hb.later k hlt r
      · exact congrFun hnext r
  · intro p heads finished hp
    have hholds := (hinv p).holds
    rw [hp] at hholds
    exact hholds.done

end

/-! ## two chains of one round -/

section Examples

/-- one commit, whose checkout writes the file `f` -/
def sampleEnv : Env ℕ ℕ where
  stress := []
  maxrounds := 1
  lines x := x.toList
  snapFails _ _ := false
  rmFails _ _ := false
  touchFails _ _ := false
  checkout _ _ head t := Function.update t ["f".toList] (some head)
  checkout_root _ _ _ t h := by
    rw [Function.update_of_ne (List.cons_ne_nil _ _).symm]
    exact h
  empty := 0

def sampleZero : Path → Option ℕ := fun r =>
  if r = [] ∨ r = ["f".toList] then some 0 else if r = ["rev-list".toList] then some 5 else none

def sampleStart : Shared ℕ (Pc ℕ ℕ) Path (Option ℕ) :=
  ⟨fun _ => .snapZero, graft sampleEnv.zero sampleZero fun _ => none⟩

theorem sample_started : Started sampleEnv sampleZero sampleStart := by
  refine ⟨sub_graft _ _ _, by decide, ?_, fun _ => rfl⟩
  intro p k r
  show graft sampleEnv.zero sampleZero (fun _ => none) (sampleEnv.dir p k ++ r) = none
  rw [graft_of_not ((zero_apart p k).not_under r)]

theorem becomes_graft {ν : Type*} (p : Path) (t m : Path → Option ν) : Becomes p t m (graft p t m) :=
  ⟨sub_graft p t m, fun _ hq => graft_of_not hq⟩

theorem snap_graft {ν : Type*} {source dest : Path} {m : Path → Option ν} (ex : m source ≠ none)
    (new : m dest = none) : Snap false source dest m (graft dest (sub m source) m) :=
  .makes rfl ex new (sub_graft _ _ _) fun _ hq => graft_of_not hq

variable {p : ℕ} {s : Shared ℕ (Pc ℕ ℕ) Path (Option ℕ)}

/-- A worker comes to its first round. -/
theorem sample_begins (hr : Reach (Interleave (Work sampleEnv)) sampleStart s)
    (hp : s.pc p = .snapZero) : ∃ m, Reach (Interleave (Work sampleEnv)) sampleStart
      ⟨Function.update s.pc p (.unlock [5] 1), m⟩ := by
  obtain ⟨tr, hrun⟩ := hr
  obtain ⟨hzero, -, hfree⟩ := sample_started.inv hrun p
  rw [hp] at hfree
  have hnew (k : ℕ) : s.mem (sampleEnv.dir p k) = none := by
    simpa using hfree k []
  have hroot : s.mem sampleEnv.zero ≠ none := by
    rw [← sub_nil s.mem, hzero]
    decide
  have h1 : Alone (Work sampleEnv) p .snapZero s.mem .unlockZero _ :=
    Alone.refl.tail (.snapZero (snap_graft hroot (hnew 0)))
  have h2 := h1.tail (.unlockZero (becomes_graft _ _ _))
  -- the directory 0 of the worker is there, and its first round has a free name
  have hdir : ¬ sampleEnv.dir p 0 <+: sampleEnv.dir p 1 :=
    (dir_apart (.inr Nat.zero_ne_one)).1
  have hlist : ¬ sampleEnv.dir p 0 <+: sampleEnv.zero ++ ["rev-list".toList] :=
    (zero_apart p 0).symm.not_under _
  have h3 : Alone (Work sampleEnv) p .snapZero s.mem (.read [5] 1) _ := h2.tail (.shuf (by
    rw [graft_of_not hlist, graft_of_not hlist]
    show [5].Perm (sub s.mem sampleEnv.zero ["rev-list".toList]).toList
    rw [hzero]
    exact List.Perm.refl _))
  have h4 := h3.tail (.read (Nat.le_refl 1) (snap_graft (by
    rw [← sub_nil (graft _ _ _), sub_graft, unlock_root, sub_graft, sub_nil]
    exact hroot) (by
    rw [graft_of_not hdir, graft_of_not hdir]
    exact hnew 1)))
  obtain ⟨tr', hrun'⟩ := h4.reach s.pc hp
  exact ⟨_, _, hrun.trans hrun'⟩

/-- It ends after this round. -/
theorem sample_ends (hr : Reach (Interleave (Work sampleEnv)) sampleStart s)
    (hp : s.pc p = .unlock [5] 1) : ∃ m, Reach (Interleave (Work sampleEnv)) sampleStart
      ⟨Function.update s.pc p (.done [5] 1), m⟩ := by
  obtain ⟨tr, hrun⟩ := hr
  obtain ⟨-, -, hholds⟩ := sample_started.inv hrun p
  rw [hp] at hholds
  obtain ⟨-, -, hat⟩ := hholds
  have hroot : s.mem (sampleEnv.dir p 1) ≠ none := by
    have hat' : sub s.mem (sampleEnv.dir p 1) = chain sampleEnv p sampleZero [5] 0 := hat
    rw [← sub_nil s.mem, hat']
    exact (chain_root sample_started.root).mpr fun _ _ => rfl
  have h1 : Alone (Work sampleEnv) p (.unlock [5] 1) s.mem (.checkout [5] 1 _) _ :=
    Alone.refl.tail (.unlock (becomes_graft _ _ _) (by
      rw [← sub_nil (graft _ _ _), sub_graft, unlock_root, sub_nil]
      exact hroot))
  have h2 : Alone (Work sampleEnv) p (.unlock [5] 1) s.mem (.touch [5] 1) _ :=
    h1.tail (.checkout rfl (becomes_graft _ _ _))
  have h3 := h2.tail (.touch (becomes_graft _ _ _))
  obtain ⟨tr', hrun'⟩ := (h3.tail (.break (by decide))).reach s.pc hp
  exact ⟨_, _, hrun.trans hrun'⟩

/-- Two workers, of which the first begins and ends its round first.  Both check out the commit `5`. -/
theorem chains_built_two : ∃ tr s, Run (Interleave (Work sampleEnv)) sampleStart tr s ∧
    s.pc 1 = .done [5] 1 ∧ s.pc 2 = .done [5] 1 ∧ sub s.mem sampleEnv.zero = sampleZero ∧
    s.mem (sampleEnv.dir 1 1 ++ ["f".toList]) = some 5 ∧
    s.mem (sampleEnv.dir 2 1 ++ ["f".toList]) = some 5 ∧
    s.mem (sampleEnv.dir 1 0 ++ ["f".toList]) = some 0 ∧ s.mem (sampleEnv.dir 1 2) = none := by
  obtain ⟨m1, h1⟩ := sample_begins (p := 1) (.refl _) rfl
  obtain ⟨m2, h2⟩ := sample_begins (p := 2) h1 rfl
  obtain ⟨m3, h3⟩ := sample_ends (p := 1) h2 rfl
  obtain ⟨m4, tr, hrun⟩ := sample_ends (p := 2) h3 rfl
  obtain ⟨hzero, -, hdone, -⟩ := chains_built sample_started hrun
  obtain ⟨-, -, h11, hfree⟩ := hdone 1 [5] 1 rfl
  obtain ⟨-, -, h21, -⟩ := hdone 2 [5] 1 rfl
  refine ⟨tr, _, hrun, rfl, rfl, hzero, ?_, ?_, ?_, ?_⟩
  · exact (congrFun (h11 1 (Nat.le_refl 1)).1 ["f".toList]).trans (by decide)
  · exact (congrFun (h21 1 (Nat.le_refl 1)).1 ["f".toList]).trans (by decide)
  · exact (congrFun (h11 0 (Nat.zero_le 1)).1 ["f".toList]).trans (by decide)
  · simpa using hfree 2 (by decide) []

end Examples

end GitAging2
