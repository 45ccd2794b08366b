import TestUnion.Decimal
import TestUnion.Interleaved

/-!
# stress-rsyncsnap: copies of a git tree, and the rsyncs to them

The script unpacks an archive to `subdir1` and `subdir2`, copies the second one to `subdir3`, ...,
checks out an old commit in the first one, and then brings all the others to the state of the first
one, by an `rsync` for each of them.  The copies run at the same time, and so do the `rsync`s.

* `Env`             where the script is called, its options, the archive, and what git does;
* `Env.dearchived`  the commands up to the copies;
* `Copy`, `Rsync`   the next step of a background job, node by node;
* `Call`, `Calls`   a call of the script, and calls one after another, as `incremental-stress` makes
                    them;
* `Ready`           no link lies where the script writes;
* `mirrored`        whatever the order of the jobs is, and whichever of them fail, every `rsync` that
                    ends with success has left the tree of the old commit, no `rsync` follows a link
                    out of its directory, and nothing else has changed.

The commands that run alone end with success.  Nodes are known without owner, mode and time.
-/

namespace RsyncSnap

open Interleaved Lts

abbrev Word := List Char

abbrev Path := List Word

inductive Node where
  | dir
  | file (data : Word)
  | link (target : Word)
  deriving DecidableEq, Repr

abbrev Store := Path → Option Node

/-- every parent of a node is a directory -/
def Closed (m : Store) : Prop := ∀ p n, m (p ++ [n]) ≠ none → m p = some .dir

/-- the directory where an archive is unpacked -/
def rooted (t : Store) : Store := Function.update t [] (some .dir)

structure Env where
  /-- the directory where the script is called -/
  cwd : Path
  /-- `$BNCHMNT` begins with a slash -/
  absolute : Bool
  /-- the names in `$BNCHMNT`, none for `.` -/
  mnt : Path
  /-- `-c` -/
  docp : Bool
  /-- what `$GITSRCARCHIVE` holds -/
  archive : Store
  archive_closed : Closed (rooted archive)
  /-- what `git status` and `git checkout $PREVTAG` make of a tree -/
  checkout : Store → Store
  checkout_closed : ∀ t, Closed t → Closed (checkout t)

section

/-- `$root/subdir$k` -/
def subdir (root : Path) (k : ℕ) : Path := root ++ ["subdir".toList ++ Nat.toDigits 10 k]

def archiveDir : Word := "linux-3.git".toList

/-- `$root/subdir$k/$ARCHIVEDIR` -/
def gitDir (root : Path) (k : ℕ) : Path := subdir root k ++ [archiveDir]

/-- `$LOGFILE` -/
def logFile (root : Path) (k : ℕ) : Path :=
  root ++ ["rsync-bench-results".toList ++ Nat.toDigits 10 k ++ ".txt".toList]

def put (m : Store) (q : Path) (x : Node) : Store := Function.update m q (some x)

def remove (p : Path) (m : Store) : Store := fun q => if p <+: q then none else m q

def mkdir (p : Path) (m : Store) : Store := if m p = none then put m p .dir else m

/-- `$RM`, if the directory exists -/
def clear (root : Path) (m : Store) (k : ℕ) : Store :=
  if m (subdir root k) = none then m else remove (subdir root k) m

variable (e : Env)

/-- where `$BNCHMNT` leads to from a directory -/
def Env.resolve (dir : Path) : Path := if e.absolute then e.mnt else dir ++ e.mnt

def Env.base : Path := e.resolve e.cwd

/-- where `$BNCHMNT` leads to after `cd $BNCHMNT` -/
def Env.again : Path := e.resolve e.base

/-- `tar -xpf $GITSRCARCHIVE -C $p` -/
def Env.extract (p : Path) (m : Store) : Store := fun q =>
  if p <+: q ∧ p ≠ q then
    match e.archive (q.drop p.length) with
    | some x => some x
    | none => m q
  else m q

def Env.unpack (k : ℕ) (m : Store) : Store :=
  e.extract (subdir e.base k) (mkdir (subdir e.base k) m)

def Env.dearchived (nr : ℕ) (m : Store) : Store :=
  e.unpack 2 (e.unpack 1 ((List.range' 1 nr).foldl (clear e.base) m))

/-- the subshell with the git commands -/
def Env.checkedOut (m : Store) : Store :=
  graft (gitDir e.again 1) (e.checkout (sub m (gitDir e.again 1))) m

/-- the git tree in the archive -/
def Env.linux : Store := sub (rooted e.archive) [archiveDir]

/-! ## the background jobs -/

inductive CopyPc where
  | start
  | cp
  | done
  | failed
  deriving DecidableEq

/-- `$CP $root/subdir2 $root/subdir$i`: a directory that exists gets the copy as a new entry.  A
snapshot is made at once. -/
inductive Copy (root : Path) (docp : Bool) (nr i : ℕ) : CopyPc → Store → CopyPc → Store → Prop
  | snapshot {m} (low : 3 ≤ i) (high : i ≤ nr) (mode : docp = false)
      (source : m (subdir root 2) ≠ none) (new : m (subdir root i) = none)
      (parent : m root = some .dir) :
    Copy root docp nr i .start m .done (graft (subdir root i) (sub m (subdir root 2)) m)
  | cp {m} (low : 3 ≤ i) (high : i ≤ nr) (mode : docp = true) (new : m (subdir root i) = none) :
    Copy root docp nr i .start m .cp m
  | nested {m m'} (low : 3 ≤ i) (high : i ≤ nr) (old : m (subdir root i) ≠ none)
      (rest : ∀ q, ¬ subdir root i <+: q → m' q = m q) : Copy root docp nr i .start m .done m'
  | cpNode {m r x} (source : m (subdir root 2 ++ r) = some x)
      (new : m (subdir root i ++ r) = none)
      (parent : m (subdir root i ++ r).dropLast = some .dir) :
    Copy root docp nr i .cp m .cp (put m (subdir root i ++ r) x)
  | cpDone {m} (all : ∀ r, m (subdir root i ++ r) = m (subdir root 2 ++ r)) :
    Copy root docp nr i .cp m .done m
  | startFails {m} (low : 3 ≤ i) (high : i ≤ nr) : Copy root docp nr i .start m .failed m
  | cpFails {m} : Copy root docp nr i .cp m .failed m

inductive RsyncPc where
  | start
  | run
  | done
  | failed
  /-- a link was followed out of the directory -/
  | astray
  deriving DecidableEq

/-- `rsync -rlpt -qcK --delete $root/subdir1/$ARCHIVEDIR/ $root/subdir$t/$ARCHIVEDIR/`: a file comes
under a name of its own first, `--delete` removes what the source does not have, and `-K` takes a link
to a directory for the directory. -/
inductive Rsync (root cwd : Path) (nr t : ℕ) : RsyncPc → Store → RsyncPc → Store → Prop
  | shell {m} (low : 2 ≤ t) (high : t ≤ nr) (dir : m cwd = some .dir)
      (log : ∀ x, m (logFile cwd t) = some x → ∃ d, x = .file d) :
    Rsync root cwd nr t .start m .run (put m (logFile cwd t) (.file []))
  | shellLink {m m' w} (low : 2 ≤ t) (high : t ≤ nr) (log : m (logFile cwd t) = some (.link w)) :
    Rsync root cwd nr t .start m .astray m'
  | shellFails {m} (low : 2 ≤ t) (high : t ≤ nr) : Rsync root cwd nr t .start m .failed m
  | output {m d} : Rsync root cwd nr t .run m .run (put m (logFile cwd t) (.file d))
  | mkdir {m r} (source : m (gitDir root 1 ++ r) = some .dir) (new : m (gitDir root t ++ r) = none)
      (parent : m (gitDir root t ++ r).dropLast = some .dir) :
    Rsync root cwd nr t .run m .run (put m (gitDir root t ++ r) .dir)
  | send {m r x} (source : m (gitDir root 1 ++ r) = some x) (leaf : x ≠ .dir)
      (old : m (gitDir root t ++ r) ≠ some .dir)
      (parent : m (gitDir root t ++ r).dropLast = some .dir) :
    Rsync root cwd nr t .run m .run (put m (gitDir root t ++ r) x)
  | temp {m r x} (extra : m (gitDir root 1 ++ r) = none) (leaf : x ≠ .dir)
      (old : m (gitDir root t ++ r) ≠ some .dir)
      (parent : m (gitDir root t ++ r).dropLast = some .dir) :
    Rsync root cwd nr t .run m .run (put m (gitDir root t ++ r) x)
  | delete {m r} (differs : m (gitDir root t ++ r) ≠ m (gitDir root 1 ++ r))
      (empty : ∀ n, m (gitDir root t ++ r ++ [n]) = none) :
    Rsync root cwd nr t .run m .run (Function.update m (gitDir root t ++ r) none)
  | follow {m m' r w} (source : m (gitDir root 1 ++ r) = some .dir)
      (link : m (gitDir root t ++ r) = some (.link w)) : Rsync root cwd nr t .run m .astray m'
  | top {m m' w} (link : m (subdir root t) = some (.link w)) : Rsync root cwd nr t .run m .astray m'
  | done {m} (same : ∀ r, m (gitDir root t ++ r) = m (gitDir root 1 ++ r)) :
    Rsync root cwd nr t .run m .done m
  | fails {m} : Rsync root cwd nr t .run m .failed m

/-! ## calls -/

/-- A call of the script, up to any moment of the `rsync`s. -/
structure Call (nr : ℕ) (m : Store) where
  copies : Shared ℕ CopyPc Path (Option Node)
  rsyncs : Shared ℕ RsyncPc Path (Option Node)
  copied : Reach (Interleave (Copy e.again e.docp nr)) ⟨fun _ => .start, e.dearchived nr m⟩ copies
  copyWait : ∀ i, 3 ≤ i → i ≤ nr → copies.pc i = .done ∨ copies.pc i = .failed
  synced : Reach (Interleave (Rsync e.again e.base nr)) ⟨fun _ => .start, e.checkedOut copies.mem⟩
    rsyncs

/-- the last `wait` is over -/
def Call.Ended {e : Env} {nr : ℕ} {m : Store} (c : Call e nr m) : Prop :=
  ∀ t, 2 ≤ t → t ≤ nr → c.rsyncs.pc t = .done ∨ c.rsyncs.pc t = .failed ∨ c.rsyncs.pc t = .astray

/-- what calls with some numbers of copies leave -/
inductive Calls (m : Store) : List ℕ → Store → Prop
  | nil : Calls m [] m
  | snoc {nrs m' nr} (h : Calls m nrs m') (c : Call e nr m') (ended : c.Ended) :
    Calls m (nrs ++ [nr]) c.rsyncs.mem

/-- Links are neither where the copies nor where the logs go. -/
structure Ready (root : Path) (m : Store) : Prop where
  closed : Closed m
  top : m root = some .dir
  subdirs : ∀ k w, m (subdir root k) ≠ some (.link w)
  logs : ∀ k w, m (logFile root k) ≠ some (.link w)

end

/-! ## stores -/

section
variable {m t : Store} {p q r : Path} {x : Node}

theorem Closed.none_below (hm : Closed m) (h : m p = none) (r : Path) : m (p ++ r) = none := by
  induction r using List.reverseRecOn with
  | nil =>
    rw [List.append_nil]
    exact h
  | append_singleton r n ih =>
    by_contra hne
    rw [← List.append_assoc] at hne
    rw [hm _ n hne] at ih
    cases ih

theorem Closed.put (hm : Closed m) (hparent : m q.dropLast = some .dir)
    (hold : x = .dir ∨ m q ≠ some .dir) : Closed (put m q x) := by
  intro p n hpn
  by_cases hp : p ++ [n] = q
  · have hne : p ≠ q := by
      rintro rfl
      simp at hp
    rw [RsyncSnap.put, Function.update_of_ne hne]
    rw [← hp, List.dropLast_concat] at hparent
    exact hparent
  · rw [RsyncSnap.put, Function.update_of_ne hp] at hpn
    have hdir := hm p n hpn
    by_cases hpq : p = q
    · subst hpq
      rcases hold with rfl | hold
      · exact Function.update_self _ _ _
      · exact absurd hdir hold
    · rw [RsyncSnap.put, Function.update_of_ne hpq]
      exact hdir

theorem Closed.erase (hm : Closed m) (hleaf : ∀ n, m (q ++ [n]) = none) :
    Closed (Function.update m q none) := by
  intro p n hpn
  have hne : p ++ [n] ≠ q := by
    intro heq
    rw [heq, Function.update_self] at hpn
    exact hpn rfl
  rw [Function.update_of_ne hne] at hpn
  have hpq : p ≠ q := by
    rintro rfl
    exact hpn (hleaf n)
  rw [Function.update_of_ne hpq]
  exact hm p n hpn

theorem Closed.remove (hm : Closed m) (p : Path) : Closed (remove p m) := by
  intro q n hq
  unfold RsyncSnap.remove at hq ⊢
  have hp : ¬ p <+: q ++ [n] := by
    intro h
    rw [if_pos h] at hq
    exact hq rfl
  rw [if_neg hp] at hq
  rw [if_neg fun h => hp (h.trans (List.prefix_append q [n]))]
  exact hm q n hq

theorem Closed.sub (hm : Closed m) (p : Path) : Closed (sub m p) := by
  intro q n hq
  unfold Interleaved.sub at hq ⊢
  rw [← List.append_assoc] at hq
  exact hm _ n hq

theorem Closed.graft (hm : Closed m) (ht : Closed t) (hparent : m p.dropLast = some .dir) :
    Closed (graft p t m) := by
  intro q n hq
  by_cases hp : p <+: q
  · obtain ⟨r, rfl⟩ := hp
    rw [List.append_assoc, graft_append] at hq
    rw [graft_append]
    exact ht r n hq
  · rw [graft_of_not hp]
    by_cases hpn : p <+: q ++ [n]
    · rcases List.prefix_concat_iff.mp hpn with rfl | h
      · rw [List.dropLast_concat] at hparent
        exact hparent
      · exact absurd h hp
    · rw [graft_of_not hpn] at hq
      exact hm q n hq

end

/-! ## paths -/

section
variable {root p q r : Path} {k k' : ℕ} {m m' t : Store}

theorem subdir_apart (h : k ≠ k') : Apart (subdir root k) (subdir root k') :=
  apart_concat (fun hd => h (toDigits_inj (List.append_cancel_left hd))) _

theorem logFile_inj (h : logFile root k = logFile root k') : k = k' := by
  have hname := List.singleton_inj.mp (List.append_cancel_left h)
  rw [List.append_assoc, List.append_assoc] at hname
  exact toDigits_inj (List.append_cancel_right (List.append_cancel_left hname))

theorem subdir_apart_logFile : Apart (subdir root k) (logFile root k') := by
  apply apart_concat
  intro h
  have hhead := (List.cons.inj h).1
  exact absurd hhead (by decide)

theorem below_ne_logFile (r : Path) : subdir root k ++ r ≠ logFile root k' :=
  fun h => subdir_apart_logFile.1 (h ▸ List.prefix_append (subdir root k) r)

theorem subdir_ne_logFile : subdir root k ≠ logFile root k' := by
  rw [← List.append_nil (subdir root k)]
  exact below_ne_logFile []

theorem root_ne_logFile : root ≠ logFile root k := by
  intro h
  have hlen := congrArg List.length h
  simp [logFile] at hlen

theorem subdir_not_root : ¬ subdir root k <+: root := by
  intro h
  have hlen := h.length_le
  rw [subdir, List.length_append, List.length_singleton] at hlen
  omega

theorem subdir_dropLast : (subdir root k).dropLast = root := List.dropLast_concat

theorem gitDir_dropLast : (gitDir root k).dropLast = subdir root k := List.dropLast_concat

theorem subdir_gitDir : subdir root k <+: gitDir root k := List.prefix_append _ _

theorem gitDir_append (r : Path) : gitDir root k ++ r = subdir root k ++ archiveDir :: r :=
  List.append_assoc _ _ _

theorem gitDir_not_subdir : ¬ gitDir root k <+: subdir root k' := by
  intro h
  have hlen := h.length_le
  simp [gitDir, subdir] at hlen

/-- what is not in the directory of a number is not in its git tree -/
theorem not_gitDir (h : ¬ subdir root k <+: q) : ¬ gitDir root k <+: q :=
  fun hq => h (subdir_gitDir.trans hq)

/-! ## the commands before the jobs -/

theorem clear_eq (hm : Closed m) : clear root m k = remove (subdir root k) m := by
  unfold clear
  split
  · next h =>
    funext q
    unfold remove
    split
    · next hq =>
      obtain ⟨r, rfl⟩ := hq
      exact hm.none_below h r
    · rfl
  · rfl

theorem cleared (root : Path) (hm : Closed m) (ks : List ℕ) : Closed (ks.foldl (clear root) m) ∧
    (∀ k ∈ ks, ∀ r, ks.foldl (clear root) m (subdir root k ++ r) = none) ∧
    ∀ q, (∀ k ∈ ks, ¬ subdir root k <+: q) → ks.foldl (clear root) m q = m q := by
  induction ks using List.reverseRecOn with
  | nil => exact ⟨hm, nofun, fun _ _ => rfl⟩
  | append_singleton ks k ih =>
    obtain ⟨hclosed, hgone, hrest⟩ := ih
    rw [List.foldl_append, List.foldl_cons, List.foldl_nil, clear_eq hclosed]
    refine ⟨hclosed.remove _, ?_, ?_⟩
    · intro k' hk' r
      unfold remove
      split
      · rfl
      · next h =>
        rcases List.mem_append.mp hk' with hk' | hk'
        · exact hgone k' hk' r
        · rw [List.mem_singleton.mp hk'] at h
          exact absurd (List.prefix_append _ r) h
    · intro q hq
      rw [List.forall_mem_append, List.forall_mem_singleton] at hq
      unfold remove
      rw [if_neg hq.2]
      exact hrest q hq.1

variable {e : Env} {nr : ℕ}

/-- Below a free name an archive is unpacked as it is. -/
theorem unpack_eq (h : ∀ r, m (subdir e.base k ++ r) = none) :
    e.unpack k m = graft (subdir e.base k) (rooted e.archive) m := by
  have hroot : m (subdir e.base k) = none := by simpa using h []
  funext q
  unfold Env.unpack Env.extract mkdir
  rw [if_pos hroot]
  by_cases hq : subdir e.base k <+: q
  · obtain ⟨r, rfl⟩ := hq
    rw [graft_append]
    by_cases hr : r = []
    · subst hr
      rw [List.append_nil, if_neg fun h => h.2 rfl]
      simp [put, rooted]
    · have hne : subdir e.base k ++ r ≠ subdir e.base k := fun h => hr (List.append_right_eq_self.mp h)
      rw [if_pos ⟨List.prefix_append _ _, hne.symm⟩, List.drop_left]
      simp only [put, rooted, Function.update_of_ne hne, Function.update_of_ne hr, h r]
      cases e.archive r <;> rfl
  · have hne : q ≠ subdir e.base k := by
      rintro rfl
      exact hq (List.prefix_refl _)
    rw [if_neg fun h => hq h.1, graft_of_not hq]
    exact Function.update_of_ne hne _ _

/-- Where the copies begin: `subdir1` and `subdir2` hold the archive, and the other names are free. -/
theorem dearchived (hm : Ready e.base m) (hnr : 2 ≤ nr) :
    Closed (e.dearchived nr m) ∧
    (∀ k, k = 1 ∨ k = 2 → sub (e.dearchived nr m) (subdir e.base k) = rooted e.archive) ∧
    (∀ k, 3 ≤ k → k ≤ nr → ∀ r, e.dearchived nr m (subdir e.base k ++ r) = none) ∧
    ∀ q, (∀ k, 1 ≤ k → k ≤ nr → ¬ subdir e.base k <+: q) → e.dearchived nr m q = m q := by
  obtain ⟨hclosed, hgone, hrest⟩ := cleared e.base hm.closed (List.range' 1 nr)
  have hmem {k : ℕ} (h1 : 1 ≤ k) (h2 : k ≤ nr) : k ∈ List.range' 1 nr := by
    rw [List.mem_range'_1]
    omega
  have hroot : (List.range' 1 nr).foldl (clear e.base) m e.base = some .dir := by
    rw [hrest _ fun k _ => subdir_not_root]
    exact hm.top
  have h12 : Apart (subdir e.base 1) (subdir e.base 2) := subdir_apart (by decide)
  have heq : e.dearchived nr m = graft (subdir e.base 2) (rooted e.archive)
      (graft (subdir e.base 1) (rooted e.archive) ((List.range' 1 nr).foldl (clear e.base) m)) := by
    unfold Env.dearchived
    rw [unpack_eq (hgone 1 (hmem (by omega) (by omega))), unpack_eq]
    intro r
    rw [graft_of_not (h12.not_under r)]
    exact hgone 2 (hmem (by omega) hnr) r
  rw [heq]
  refine ⟨?_, ?_, ?_, ?_⟩
  · apply Closed.graft
    · apply Closed.graft hclosed e.archive_closed
      rw [subdir_dropLast]
      exact hroot
    · exact e.archive_closed
    · rw [subdir_dropLast, graft_of_not subdir_not_root]
      exact hroot
  · intro k hk
    rcases hk with rfl | rfl
    · funext r
      show graft _ _ _ (subdir e.base 1 ++ r) = _
      rw [graft_of_not (h12.symm.not_under r), graft_append]
    · exact sub_graft _ _ _
  · intro k h3 hk r
    have h1 : Apart (subdir e.base 1) (subdir e.base k) := subdir_apart (by omega)
    have h2 : Apart (subdir e.base 2) (subdir e.base k) := subdir_apart (by omega)
    rw [graft_of_not (h2.not_under r), graft_of_not (h1.not_under r)]
    exact hgone k (hmem (by omega) hk) r
  · intro q hq
    rw [graft_of_not (hq 2 (by omega) hnr), graft_of_not (hq 1 (by omega) (by omega))]
    apply hrest
    intro k hk
    rw [List.mem_range'_1] at hk
    exact hq k (by omega) (by omega)

end

/-! ## the copies -/

section
variable {root q : Path} {docp : Bool} {nr i : ℕ} {c c' : CopyPc} {m m' X : Store}

def copyOwn (root : Path) (nr i : ℕ) : Set Path := {q | (3 ≤ i ∧ i ≤ nr) ∧ subdir root i <+: q}

/-- A copy that has not ended, or has failed, is a part of `subdir2`. -/
structure CopyInv (X : Store) (root : Path) (nr i : ℕ) (c : CopyPc) (m : Store) : Prop where
  source : sub m (subdir root 2) = X
  range : c ≠ .start → 3 ≤ i ∧ i ≤ nr
  part : 3 ≤ i → i ≤ nr → ∀ r, m (subdir root i ++ r) = none ∨ m (subdir root i ++ r) = X r
  fresh : 3 ≤ i → i ≤ nr → c = .start → m (subdir root i) = none

theorem subdir_not_copyOwn {k : ℕ} (h : k ≠ i ∨ k < 3) (r : Path) :
    subdir root k ++ r ∉ copyOwn root nr i := by
  intro hq
  obtain ⟨⟨h3, -⟩, hq⟩ := hq
  exact (subdir_apart (by omega)).not_under r hq

theorem CopyInv.blind (i : ℕ) (c : CopyPc) : Blind (copyOwn root nr) i (CopyInv X root nr i c) := by
  intro m m' hm h
  have hi (r : Path) : m' (subdir root i ++ r) = m (subdir root i ++ r) :=
    hm _ fun j hj => subdir_not_copyOwn (.inl hj.symm) r
  refine ⟨?_, h.range, ?_, ?_⟩
  · rw [← h.source]
    exact funext fun r => hm _ fun j _ => subdir_not_copyOwn (.inr (by decide)) r
  · intro h3 hnr r
    rw [hi r]
    exact h.part h3 hnr r
  · intro h3 hnr hc
    have := hi []
    rw [List.append_nil] at this
    rw [this]
    exact h.fresh h3 hnr hc

theorem CopyInv.frame (h : CopyInv X root nr i c m) (hw : Copy root docp nr i c m c' m')
    (hq : q ∉ copyOwn root nr i) : m' q = m q := by
  have hnot (hi : 3 ≤ i ∧ i ≤ nr) : ¬ subdir root i <+: q := fun hp => hq ⟨hi, hp⟩
  cases hw with
  | snapshot low high => exact graft_of_not (hnot ⟨low, high⟩)
  | nested low high old rest => exact rest q (hnot ⟨low, high⟩)
  | cpNode =>
    apply Function.update_of_ne
    rintro rfl
    exact hnot (h.range nofun) (List.prefix_append _ _)
  | _ => rfl

theorem CopyInv.step (h : CopyInv X root nr i c m) (hw : Copy root docp nr i c m c' m') :
    CopyInv X root nr i c' m' := by
  have hsource : sub m' (subdir root 2) = X := by
    rw [← h.source]
    exact funext fun r => h.frame hw (subdir_not_copyOwn (.inr (by decide)) r)
  have hX (r : Path) : m (subdir root 2 ++ r) = X r := congrFun h.source r
  cases hw with
  | snapshot low high =>
    refine ⟨hsource, fun _ => ⟨low, high⟩, ?_, nofun⟩
    intro _ _ r
    rw [graft_append]
    exact .inr (hX r)
  | cp low high mode new => exact ⟨h.source, fun _ => ⟨low, high⟩, h.part, nofun⟩
  | nested low high old rest => exact absurd (h.fresh low high rfl) old
  | @cpNode _ r x source new parent =>
    refine ⟨hsource, fun _ => h.range nofun, ?_, nofun⟩
    intro h3 hnr r'
    by_cases hr : r' = r
    · subst hr
      right
      rw [put, Function.update_self, ← hX r', source]
    · have hne : subdir root i ++ r' ≠ subdir root i ++ r := fun heq => hr (List.append_cancel_left heq)
      rw [put, Function.update_of_ne hne]
      exact h.part h3 hnr r'
  | cpDone all => exact ⟨h.source, fun _ => h.range nofun, h.part, nofun⟩
  | startFails low high => exact ⟨h.source, fun _ => ⟨low, high⟩, h.part, nofun⟩
  | cpFails => exact ⟨h.source, fun _ => h.range nofun, h.part, nofun⟩

theorem Copy.closed (hm : Closed m) (h : CopyInv X root nr i c m)
    (hw : Copy root docp nr i c m c' m') : Closed m' := by
  cases hw with
  | snapshot low high mode source new parent =>
    apply hm.graft (hm.sub _)
    rw [subdir_dropLast]
    exact parent
  | nested low high old rest => exact absurd (h.fresh low high rfl) old
  | cpNode source new parent =>
    apply hm.put parent
    right
    rw [new]
    exact nofun
  | _ => exact hm

variable {s s' : Shared ℕ CopyPc Path (Option Node)}

/-- What the copies leave is a part of `subdir2` in each of their directories. -/
theorem copies_keep (hr : Reach (Interleave (Copy root docp nr)) s s') (hm : Closed s.mem)
    (hs : ∀ i, CopyInv X root nr i (s.pc i) s.mem) :
    (∀ i, CopyInv X root nr i (s'.pc i) s'.mem) ∧ Closed s'.mem ∧
      ∀ q, (∀ i, 3 ≤ i → i ≤ nr → ¬ subdir root i <+: q) → s'.mem q = s.mem q := by
  apply hr.inv (I := fun u => (∀ i, CopyInv X root nr i (u.pc i) u.mem) ∧ Closed u.mem ∧
    ∀ q, (∀ i, 3 ≤ i → i ≤ nr → ¬ subdir root i <+: q) → u.mem q = s.mem q) _
    ⟨hs, hm, fun _ _ => rfl⟩
  intro u i v hu hst
  obtain ⟨hinv, hclosed, hrest⟩ := hu
  refine ⟨?_, Copy.closed hclosed (hinv i) hst.1, ?_⟩
  · exact Interleave.keeps CopyInv.blind (fun _ _ _ _ _ h hw _ hl => h.frame hw hl)
      (fun _ _ _ _ _ h hw => h.step hw) hst hinv
  · intro q hq
    rw [← hrest q hq]
    exact (hinv i).frame hst.1 fun h => hq i h.1.1 h.1.2 h.2

end

/-! ## the rsyncs -/

section
variable {root q : Path} {nr t : ℕ} {c c' : RsyncPc} {m m' S : Store}

def rsyncOwn (root : Path) (nr t : ℕ) : Set Path :=
  {q | (2 ≤ t ∧ t ≤ nr) ∧ (gitDir root t <+: q ∨ q = logFile root t)}

/-- No link lies where the source has a directory. -/
structure Target (S : Store) (root : Path) (t : ℕ) (m : Store) : Prop where
  plain : ∀ r w, S r = some .dir → m (gitDir root t ++ r) ≠ some (.link w)
  top : ∀ w, m (subdir root t) ≠ some (.link w)
  log : ∀ w, m (logFile root t) ≠ some (.link w)

structure RsyncInv (S : Store) (root : Path) (nr t : ℕ) (c : RsyncPc) (m : Store) : Prop where
  source : sub m (gitDir root 1) = S
  range : c ≠ .start → 2 ≤ t ∧ t ≤ nr
  target : 2 ≤ t ∧ t ≤ nr → Target S root t m
  opened : c = .run → m root = some .dir ∧ ∃ d, m (logFile root t) = some (.file d)
  kept : c ≠ .astray
  full : c = .done → sub m (gitDir root t) = S

theorem not_rsyncOwn (h : ¬ gitDir root t <+: q) (hq : q ≠ logFile root t) : q ∉ rsyncOwn root nr t :=
  fun hx => hx.2.elim h hq

theorem gitDir_not_rsyncOwn {k : ℕ} (h : k ≠ t ∨ k < 2) (r : Path) :
    gitDir root k ++ r ∉ rsyncOwn root nr t := by
  intro hq
  obtain ⟨⟨h2, -⟩, hq⟩ := hq
  rw [gitDir_append] at hq
  rcases hq with hq | hq
  · have hapart : Apart (subdir root t) (subdir root k) := subdir_apart (by omega)
    exact hapart.not_under _ (subdir_gitDir.trans hq)
  · exact below_ne_logFile _ hq

theorem subdir_not_rsyncOwn (k : ℕ) : subdir root k ∉ rsyncOwn root nr t :=
  not_rsyncOwn gitDir_not_subdir subdir_ne_logFile

theorem logFile_not_rsyncOwn {k : ℕ} (h : k ≠ t) : logFile root k ∉ rsyncOwn root nr t :=
  not_rsyncOwn (fun hq => subdir_apart_logFile.1 (subdir_gitDir.trans hq)) fun hq => h (logFile_inj hq)

theorem root_not_rsyncOwn : root ∉ rsyncOwn root nr t :=
  not_rsyncOwn (not_gitDir subdir_not_root) root_ne_logFile

theorem Target.congr (h : Target S root t m)
    (hgit : ∀ r, m' (gitDir root t ++ r) = m (gitDir root t ++ r))
    (htop : m' (subdir root t) = m (subdir root t))
    (hlog : m' (logFile root t) = m (logFile root t)) : Target S root t m' :=
  ⟨fun r w hr => by rw [hgit r]; exact h.plain r w hr, by rw [htop]; exact h.top,
    by rw [hlog]; exact h.log⟩

theorem RsyncInv.blind (t : ℕ) (c : RsyncPc) : Blind (rsyncOwn root nr) t (RsyncInv S root nr t c) := by
  intro m m' hm h
  have hgit (r : Path) : m' (gitDir root t ++ r) = m (gitDir root t ++ r) :=
    hm _ fun j hj => gitDir_not_rsyncOwn (.inl hj.symm) r
  have hlog : m' (logFile root t) = m (logFile root t) :=
    hm _ fun j hj => logFile_not_rsyncOwn hj.symm
  refine ⟨?_, h.range, ?_, ?_, h.kept, ?_⟩
  · rw [← h.source]
    exact funext fun r => hm _ fun j _ => gitDir_not_rsyncOwn (.inr (by decide)) r
  · intro ht
    exact (h.target ht).congr hgit (hm _ fun j _ => subdir_not_rsyncOwn t) hlog
  · intro hc
    rw [hlog, hm _ fun j _ => root_not_rsyncOwn]
    exact h.opened hc
  · intro hc
    rw [← h.full hc]
    exact funext hgit

/-- `-K` never applies. -/
theorem RsyncInv.not_link (h : RsyncInv S root nr t .run m) {r : Path} {w : Word}
    (source : m (gitDir root 1 ++ r) = some .dir) : m (gitDir root t ++ r) ≠ some (.link w) := by
  have hS : m (gitDir root 1 ++ r) = S r := congrFun h.source r
  exact (h.target (h.range nofun)).plain r w (hS.symm.trans source)

theorem RsyncInv.frame (h : RsyncInv S root nr t c m) (hw : Rsync root root nr t c m c' m')
    (hq : q ∉ rsyncOwn root nr t) : m' q = m q := by
  have hlog (ht : 2 ≤ t ∧ t ≤ nr) (x : Option Node) :
      Function.update m (logFile root t) x q = m q := by
    apply Function.update_of_ne
    rintro rfl
    exact hq ⟨ht, .inr rfl⟩
  have hgit (ht : 2 ≤ t ∧ t ≤ nr) (r : Path) (x : Option Node) :
      Function.update m (gitDir root t ++ r) x q = m q := by
    apply Function.update_of_ne
    rintro rfl
    exact hq ⟨ht, .inl (List.prefix_append _ _)⟩
  cases hw with
  | shell low high dir log => exact hlog ⟨low, high⟩ _
  | shellLink low high log => exact absurd log ((h.target ⟨low, high⟩).log _)
  | output => exact hlog (h.range nofun) _
  | mkdir source new parent => exact hgit (h.range nofun) _ _
  | send source leaf old parent => exact hgit (h.range nofun) _ _
  | temp extra leaf old parent => exact hgit (h.range nofun) _ _
  | delete differs empty => exact hgit (h.range nofun) _ _
  | follow source link => exact absurd link (h.not_link source)
  | top link => exact absurd link ((h.target (h.range nofun)).top _)
  | _ => rfl

/-- An entry of the git tree is written: a link only where the source has no directory. -/
theorem RsyncInv.write (h : RsyncInv S root nr t .run m) {r : Path} {x : Option Node}
    (hx : S r = some .dir → ∀ w, x ≠ some (.link w)) :
    RsyncInv S root nr t .run (Function.update m (gitDir root t ++ r) x) := by
  have ht : 2 ≤ t ∧ t ≤ nr := h.range nofun
  have hmem : gitDir root t ++ r ∈ rsyncOwn root nr t := ⟨ht, .inl (List.prefix_append _ _)⟩
  have hother {q : Path} (hq : q ∉ rsyncOwn root nr t) :
      Function.update m (gitDir root t ++ r) x q = m q := by
    apply Function.update_of_ne
    rintro rfl
    exact hq hmem
  have hlog : Function.update m (gitDir root t ++ r) x (logFile root t) = m (logFile root t) := by
    apply Function.update_of_ne
    rw [gitDir_append]
    exact (below_ne_logFile _).symm
  refine ⟨?_, fun _ => ht, ?_, ?_, nofun, nofun⟩
  · rw [← h.source]
    exact funext fun r' => hother (gitDir_not_rsyncOwn (.inr (by decide)) r')
  · intro _
    refine ⟨?_, ?_, ?_⟩
    · intro r' w hr'
      by_cases hr : r' = r
      · subst hr
        rw [Function.update_self]
        exact hx hr' w
      · have hne : gitDir root t ++ r' ≠ gitDir root t ++ r := fun heq => hr (List.append_cancel_left heq)
        rw [Function.update_of_ne hne]
        exact (h.target ht).plain r' w hr'
    · rw [hother (subdir_not_rsyncOwn t)]
      exact (h.target ht).top
    · rw [hlog]
      exact (h.target ht).log
  · intro _
    rw [hlog, hother root_not_rsyncOwn]
    exact h.opened rfl

/-- The shell makes the log, or it is written on. -/
theorem RsyncInv.report (h : RsyncInv S root nr t c m) (ht : 2 ≤ t ∧ t ≤ nr)
    (hroot : m root = some .dir) (d : Word) :
    RsyncInv S root nr t .run (put m (logFile root t) (.file d)) := by
  have hother {q : Path} (hq : q ≠ logFile root t) : put m (logFile root t) (.file d) q = m q :=
    Function.update_of_ne hq _ _
  have hgit (k : ℕ) (r : Path) : gitDir root k ++ r ≠ logFile root t := by
    rw [gitDir_append]
    exact below_ne_logFile _
  have hlog : put m (logFile root t) (.file d) (logFile root t) = some (.file d) :=
    Function.update_self _ _ _
  refine ⟨?_, fun _ => ht, ?_, ?_, nofun, nofun⟩
  · rw [← h.source]
    exact funext fun r => hother (hgit 1 r)
  · intro _
    refine ⟨?_, ?_, ?_⟩
    · intro r w hr
      rw [hother (hgit t r)]
      exact (h.target ht).plain r w hr
    · rw [hother subdir_ne_logFile]
      exact (h.target ht).top
    · rw [hlog]
      exact nofun
  · intro _
    refine ⟨?_, d, hlog⟩
    rw [hother root_ne_logFile]
    exact hroot

theorem RsyncInv.step (h : RsyncInv S root nr t c m) (hw : Rsync root root nr t c m c' m') :
    RsyncInv S root nr t c' m' := by
  have hS (r : Path) : m (gitDir root 1 ++ r) = S r := congrFun h.source r
  cases hw with
  | shell low high dir log => exact h.report ⟨low, high⟩ dir []
  | shellLink low high log => exact absurd log ((h.target ⟨low, high⟩).log _)
  | shellFails low high => exact ⟨h.source, fun _ => ⟨low, high⟩, h.target, nofun, nofun, nofun⟩
  | @output _ d => exact h.report (h.range nofun) (h.opened rfl).1 d
  | mkdir source new parent => exact h.write fun _ _ => nofun
  | @send _ r x source leaf old parent =>
    apply h.write
    intro hr
    rw [← hS r, source] at hr
    exact absurd (Option.some.inj hr) leaf
  | @temp _ r x extra leaf old parent =>
    apply h.write
    intro hr
    rw [← hS r, extra] at hr
    cases hr
  | delete differs empty => exact h.write fun _ _ => nofun
  | follow source link => exact absurd link (h.not_link source)
  | top link => exact absurd link ((h.target (h.range nofun)).top _)
  | done same =>
    refine ⟨h.source, fun _ => h.range nofun, h.target, nofun, nofun, ?_⟩
    intro _
    exact funext fun r => (same r).trans (hS r)
  | fails => exact ⟨h.source, fun _ => h.range nofun, h.target, nofun, nofun, nofun⟩

theorem Rsync.closed (hm : Closed m) (h : RsyncInv S root nr t c m)
    (hw : Rsync root root nr t c m c' m') : Closed m' := by
  have hlog (hroot : m root = some .dir) (hold : m (logFile root t) ≠ some .dir) (d : Word) :
      Closed (put m (logFile root t) (.file d)) := by
    apply hm.put _ (.inr hold)
    rw [logFile, List.dropLast_concat]
    exact hroot
  cases hw with
  | shell low high dir log =>
    apply hlog dir
    intro hx
    obtain ⟨d, hd⟩ := log _ hx
    cases hd
  | shellLink low high log => exact absurd log ((h.target ⟨low, high⟩).log _)
  | output =>
    obtain ⟨hroot, d, hd⟩ := h.opened rfl
    apply hlog hroot
    rw [hd]
    exact nofun
  | mkdir source new parent => exact hm.put parent (.inl rfl)
  | send source leaf old parent => exact hm.put parent (.inr old)
  | temp extra leaf old parent => exact hm.put parent (.inr old)
  | delete differs empty => exact hm.erase empty
  | follow source link => exact absurd link (h.not_link source)
  | top link => exact absurd link ((h.target (h.range nofun)).top _)
  | _ => exact hm

variable {s s' : Shared ℕ RsyncPc Path (Option Node)}

theorem rsyncs_keep (hr : Reach (Interleave (Rsync root root nr)) s s') (hm : Closed s.mem)
    (hs : ∀ t, RsyncInv S root nr t (s.pc t) s.mem) :
    (∀ t, RsyncInv S root nr t (s'.pc t) s'.mem) ∧ Closed s'.mem ∧
      ∀ q, (∀ t, q ∉ rsyncOwn root nr t) → s'.mem q = s.mem q := by
  apply hr.inv (I := fun u => (∀ t, RsyncInv S root nr t (u.pc t) u.mem) ∧ Closed u.mem ∧
    ∀ q, (∀ t, q ∉ rsyncOwn root nr t) → u.mem q = s.mem q) _ ⟨hs, hm, fun _ _ => rfl⟩
  intro u t v hu hst
  obtain ⟨hinv, hclosed, hrest⟩ := hu
  refine ⟨?_, Rsync.closed hclosed (hinv t) hst.1, ?_⟩
  · exact Interleave.keeps RsyncInv.blind (fun _ _ _ _ _ h hw _ hl => h.frame hw hl)
      (fun _ _ _ _ _ h hw => h.step hw) hst hinv
  · intro q hq
    rw [← hrest q hq]
    exact (hinv t).frame hst.1 (hq t)

end

/-! ## one call -/

section
variable {e : Env} {nr : ℕ} {m w : Store}

theorem Env.again_eq (h : e.absolute = true ∨ e.mnt = []) : e.again = e.base := by
  unfold Env.again Env.base Env.resolve
  rcases h with h | h
  · rw [h]
    rfl
  · rw [h, List.append_nil, List.append_nil]
    cases e.absolute <;> rfl

/-- Outside of these places a call changes nothing. -/
def Far (root : Path) (nr : ℕ) (q : Path) : Prop := ∀ k, 1 ≤ k → k ≤ nr → ¬ subdir root k <+: q

theorem far_subdir {root : Path} {k : ℕ} (h : k = 0 ∨ nr < k) : Far root nr (subdir root k) := by
  intro j h1 hj
  exact (subdir_apart (by omega)).1

/-- what the first `wait` leaves -/
structure Waited (e : Env) (nr : ℕ) (m w : Store) : Prop where
  closed : Closed w
  one : sub w (subdir e.base 1) = rooted e.archive
  part : ∀ k, 2 ≤ k → k ≤ nr → ∀ r,
    w (subdir e.base k ++ r) = none ∨ w (subdir e.base k ++ r) = rooted e.archive r
  rest : ∀ q, Far e.base nr q → w q = m q

theorem waited {s : Shared ℕ CopyPc Path (Option Node)} (hm : Ready e.base m) (hnr : 2 ≤ nr)
    (hr : Reach (Interleave (Copy e.base e.docp nr)) ⟨fun _ => .start, e.dearchived nr m⟩ s) :
    Waited e nr m s.mem := by
  obtain ⟨hclosed, harchive, hfree, hrest⟩ := dearchived (e := e) hm hnr
  have hstart : ∀ i, CopyInv (rooted e.archive) e.base nr i .start (e.dearchived nr m) := by
    intro i
    refine ⟨harchive 2 (.inr rfl), fun h => absurd rfl h, ?_, ?_⟩
    · exact fun h3 hi r => .inl (hfree i h3 hi r)
    · intro h3 hi _
      simpa using hfree i h3 hi []
  obtain ⟨hinv, hclosed', hrest'⟩ := copies_keep hr hclosed hstart
  refine ⟨hclosed', ?_, ?_, ?_⟩
  · rw [← harchive 1 (.inl rfl)]
    exact funext fun r => hrest' _ fun i hi _ => (subdir_apart (by omega)).not_under r
  · intro k h2 hk r
    rcases Nat.lt_or_eq_of_le h2 with h3 | rfl
    · exact (hinv k).part h3 hk r
    · exact .inr (congrFun (hinv 2).source r)
  · intro q hq
    rw [hrest' q fun i h3 hi => hq i (by omega) hi]
    exact hrest q hq

theorem Waited.linux (h : Waited e nr m w) : sub w (gitDir e.base 1) = e.linux := by
  unfold gitDir Env.linux
  rw [← sub_sub, h.one]

theorem Waited.ready (h : Waited e nr m w) (hm : Ready e.base m) : Ready e.base w := by
  refine ⟨h.closed, ?_, ?_, ?_⟩
  · rw [h.rest _ fun _ _ _ => subdir_not_root]
    exact hm.top
  · intro k x
    by_cases hk : k = 0 ∨ nr < k
    · rw [h.rest _ (far_subdir hk)]
      exact hm.subdirs k x
    · have hroot : w (subdir e.base k) = none ∨ w (subdir e.base k) = some .dir := by
        by_cases h1 : k = 1
        · subst h1
          have hone := congrFun h.one []
          simp only [sub, List.append_nil] at hone
          exact .inr hone
        · have hpart := h.part k (by omega) (by omega) []
          rw [List.append_nil] at hpart
          exact hpart
      rcases hroot with hroot | hroot <;> (rw [hroot]; exact nofun)
  · intro k x
    rw [h.rest _ fun _ _ _ => subdir_apart_logFile.1]
    exact hm.logs k x

/-- the state after the old commit is checked out -/
theorem Waited.checked (h : Waited e nr m w) (hm : Ready e.base m) :
    Ready e.base (graft (gitDir e.base 1) (e.checkout e.linux) w) := by
  have hw := h.ready hm
  refine ⟨?_, ?_, ?_, ?_⟩
  · apply h.closed.graft
    · apply e.checkout_closed
      rw [← h.linux]
      exact h.closed.sub _
    · rw [gitDir_dropLast]
      have hone := congrFun h.one []
      simp only [sub, List.append_nil] at hone
      exact hone
  · rw [graft_of_not (not_gitDir subdir_not_root)]
    exact hw.top
  · intro k x
    rw [graft_of_not gitDir_not_subdir]
    exact hw.subdirs k x
  · intro k x
    rw [graft_of_not (not_gitDir subdir_apart_logFile.1)]
    exact hw.logs k x

/-- What the `rsync`s begin with has no link in their way. -/
theorem Waited.begin (h : Waited e nr m w) (hm : Ready e.base m)
    (hplain : ∀ r x, e.checkout e.linux r = some .dir → e.linux r ≠ some (.link x)) (t : ℕ) :
    RsyncInv (e.checkout e.linux) e.base nr t .start
      (graft (gitDir e.base 1) (e.checkout e.linux) w) := by
  have hchecked := h.checked hm
  refine ⟨sub_graft _ _ _, fun hc => absurd rfl hc, ?_, nofun, nofun, nofun⟩
  intro ht
  refine ⟨?_, hchecked.subdirs t, hchecked.logs t⟩
  intro r x hr
  have hapart : Apart (subdir e.base 1) (subdir e.base t) := subdir_apart (by omega)
  rw [gitDir_append, graft_of_not (not_gitDir (hapart.not_under _))]
  rcases h.part t ht.1 ht.2 (archiveDir :: r) with hnone | harchive
  · rw [hnone]
    exact nofun
  · rw [harchive]
    exact hplain r x hr

variable {nrs : List ℕ} {m₀ : Store}

/-- What is true in a call, at any moment of the `rsync`s. -/
structure Call.Sound (c : Call e nr m) : Prop where
  inv : ∀ t, RsyncInv (e.checkout e.linux) e.base nr t (c.rsyncs.pc t) c.rsyncs.mem
  ready : Ready e.base c.rsyncs.mem
  rest : ∀ q, Far e.base nr q → (∀ k, 2 ≤ k → k ≤ nr → q ≠ logFile e.base k) → c.rsyncs.mem q = m q

theorem Call.sound (c : Call e nr m) (hdir : e.absolute = true ∨ e.mnt = [])
    (hplain : ∀ r x, e.checkout e.linux r = some .dir → e.linux r ≠ some (.link x))
    (hm : Ready e.base m) (hnr : 2 ≤ nr) : c.Sound := by
  obtain ⟨copies, rsyncs, hcopies, hwait, hrsyncs⟩ := c
  unfold Env.checkedOut at hrsyncs
  rw [Env.again_eq hdir] at hcopies hrsyncs
  have hw := waited hm hnr hcopies
  rw [hw.linux] at hrsyncs
  have hbegin := hw.checked hm
  obtain ⟨hinv, hclosed, hrest⟩ := rsyncs_keep hrsyncs hbegin.closed (hw.begin hm hplain)
  refine ⟨hinv, ⟨hclosed, ?_, ?_, ?_⟩, ?_⟩
  · rw [hrest _ fun t => root_not_rsyncOwn]
    exact hbegin.top
  · intro k x
    rw [hrest _ fun t => subdir_not_rsyncOwn k]
    exact hbegin.subdirs k x
  · intro k x
    by_cases hk : 2 ≤ k ∧ k ≤ nr
    · exact ((hinv k).target hk).log x
    · rw [hrest]
      · exact hbegin.logs k x
      · intro t hq
        rcases hq with ⟨ht, hq | hq⟩
        · exact subdir_apart_logFile.1 (subdir_gitDir.trans hq)
        · exact hk (logFile_inj hq ▸ ht)
  · intro q hfar hlog
    rw [hrest]
    · show graft (gitDir e.base 1) (e.checkout e.linux) copies.mem q = m q
      rw [graft_of_not (not_gitDir (hfar 1 (by omega) (by omega)))]
      exact hw.rest q hfar
    · intro t hq
      rcases hq with ⟨ht, hq | hq⟩
      · exact not_gitDir (hfar t (by omega) ht.2) hq
      · exact hlog t ht.1 ht.2 hq

/-! ## calls one after another -/

theorem Calls.ready (h : Calls e m₀ nrs m) (hdir : e.absolute = true ∨ e.mnt = [])
    (hplain : ∀ r x, e.checkout e.linux r = some .dir → e.linux r ≠ some (.link x))
    (hm : Ready e.base m₀) (hnrs : ∀ nr ∈ nrs, 2 ≤ nr) : Ready e.base m := by
  induction h with
  | nil => exact hm
  | snoc h c ended ih =>
    rw [List.forall_mem_append, List.forall_mem_singleton] at hnrs
    exact (c.sound hdir hplain (ih hnrs.1) hnrs.2).ready

/-- However the copies and the `rsync`s of a call come in turn, and however earlier calls ended: the
source stays what git checked out, an `rsync` that ended with success has made its directory the same,
and none of them left its directory. -/
theorem mirrored (hdir : e.absolute = true ∨ e.mnt = [])
    (hplain : ∀ r x, e.checkout e.linux r = some .dir → e.linux r ≠ some (.link x))
    (hm : Ready e.base m₀) (hcalls : Calls e m₀ nrs m) (hnrs : ∀ nr ∈ nrs, 2 ≤ nr) (hnr : 2 ≤ nr)
    (c : Call e nr m) :
    sub c.rsyncs.mem (gitDir e.base 1) = e.checkout e.linux ∧
    (∀ t, c.rsyncs.pc t = .done → sub c.rsyncs.mem (gitDir e.base t) = e.checkout e.linux) ∧
    (∀ t, c.rsyncs.pc t ≠ .astray) ∧
    ∀ q, (∀ k, 1 ≤ k → k ≤ nr → ¬ subdir e.base k <+: q) →
      (∀ k, 2 ≤ k → k ≤ nr → q ≠ logFile e.base k) → c.rsyncs.mem q = m q := by
  have hc := c.sound hdir hplain (hcalls.ready hdir hplain hm hnrs) hnr
  exact ⟨(hc.inv 0).source, fun t => (hc.inv t).full, fun t => (hc.inv t).kept, hc.rest⟩

end

/-! ## a call with three copies -/

/-- a tree with the file `a` -/
def sampleArchive : Store := fun r =>
  if r = [archiveDir] then some .dir
  else if r = [archiveDir, ['a']] then some (.file ['x']) else none

/-- the file has another text in the old commit -/
def sampleCheckout (t : Store) : Store := fun r =>
  if t r = some (.file ['x']) then some (.file ['y']) else t r

theorem sampleArchive_closed : Closed (rooted sampleArchive) := by
  intro p n h
  have hne : p ++ [n] ≠ [] := List.append_ne_nil_of_right_ne_nil _ (List.cons_ne_nil _ _)
  unfold rooted at h ⊢
  rw [Function.update_of_ne hne] at h
  unfold sampleArchive at h
  split at h
  · next heq =>
    have heq' : p ++ [n] = [] ++ [archiveDir] := heq
    rw [(List.append_inj' heq' rfl).1]
    exact Function.update_self _ _ _
  · split at h
    · next heq =>
      have heq' : p ++ [n] = [archiveDir] ++ [['a']] := heq
      rw [(List.append_inj' heq' rfl).1]
      rfl
    · exact absurd rfl h

theorem sampleCheckout_closed (t : Store) (ht : Closed t) : Closed (sampleCheckout t) := by
  intro p n h
  have hn : t (p ++ [n]) ≠ none := by
    intro hn
    unfold sampleCheckout at h
    rw [hn] at h
    exact h rfl
  unfold sampleCheckout
  rw [ht p n hn]
  rfl

def sampleEnv : Env where
  cwd := []
  absolute := true
  mnt := []
  docp := false
  archive := sampleArchive
  archive_closed := sampleArchive_closed
  checkout := sampleCheckout
  checkout_closed := sampleCheckout_closed

def sampleStore : Store := put (fun _ => none) [] .dir

theorem sampleStore_none {q : Path} (h : q ≠ []) : sampleStore q = none := by
  unfold sampleStore put
  rw [Function.update_of_ne h]

theorem sample_ready : Ready sampleEnv.base sampleStore := by
  refine ⟨?_, rfl, ?_, ?_⟩
  · intro p n h
    have hne : p ++ [n] ≠ [] := List.append_ne_nil_of_right_ne_nil _ (List.cons_ne_nil _ _)
    exact absurd (sampleStore_none hne) h
  · intro k w
    have hne : subdir sampleEnv.base k ≠ [] := List.cons_ne_nil _ _
    rw [sampleStore_none hne]
    exact nofun
  · intro k w
    have hne : logFile sampleEnv.base k ≠ [] := List.cons_ne_nil _ _
    rw [sampleStore_none hne]
    exact nofun

/-- the store after the snapshot -/
def sampleCopied : Store :=
  graft (subdir [] 3) (sub (sampleEnv.dearchived 3 sampleStore) (subdir [] 2))
    (sampleEnv.dearchived 3 sampleStore)

theorem sample_copy : Alone (Copy sampleEnv.again sampleEnv.docp 3) 3 .start
    (sampleEnv.dearchived 3 sampleStore) .done sampleCopied :=
  Alone.refl.tail (.snapshot (by decide) (by decide) rfl (by decide +kernel) (by decide +kernel)
    (by decide +kernel))

theorem sample_waited : Waited sampleEnv 3 sampleStore sampleCopied :=
  waited (s := ⟨Function.update (fun _ => .start) 3 .done, sampleCopied⟩) sample_ready (by decide)
    (sample_copy.reach (fun _ => .start) rfl)

theorem sample_linux (r : Path) : sampleEnv.linux r =
    if r = [] then some .dir else if r = [['a']] then some (.file ['x']) else none := by
  show rooted sampleArchive ([archiveDir] ++ r) = _
  have hne : [archiveDir] ++ r ≠ [] := List.cons_ne_nil _ _
  rw [rooted, Function.update_of_ne hne]
  simp [sampleArchive]

/-- the store after `subdir2` is synchronised -/
def sampleSynced : Store :=
  put (put (sampleEnv.checkedOut sampleCopied) (logFile [] 2) (.file [])) (gitDir [] 2 ++ [['a']])
    (.file ['y'])

theorem sample_two (r : Path) : sampleCopied (gitDir [] 2 ++ r) = sampleEnv.linux r := by
  have hapart : Apart (subdir [] 3) (subdir [] 2) := subdir_apart (by decide)
  obtain ⟨-, harchive, -⟩ := dearchived sample_ready (by decide : 2 ≤ 3)
  rw [gitDir_append, sampleCopied, graft_of_not (hapart.not_under _)]
  exact congrFun (harchive 2 (.inr rfl)) (archiveDir :: r)

theorem sample_same (r : Path) : sampleSynced (gitDir [] 2 ++ r) = sampleSynced (gitDir [] 1 ++ r) := by
  by_cases hr : r = [['a']]
  · subst hr
    decide +kernel
  · have hapart : Apart (subdir [] 1) (subdir [] 2) := subdir_apart (by decide)
    have h2 : gitDir [] 2 ++ r ≠ gitDir [] 2 ++ [['a']] := fun h => hr (List.append_cancel_left h)
    have h1 : gitDir [] 1 ++ r ≠ gitDir [] 2 ++ [['a']] := by
      intro h
      rw [gitDir_append, gitDir_append] at h
      exact hapart.not_under _ (h ▸ List.prefix_append (subdir [] 1) _)
    have hlog (k : ℕ) : gitDir [] k ++ r ≠ logFile [] 2 := by
      rw [gitDir_append]
      exact below_ne_logFile _
    have hx : sampleEnv.linux r ≠ some (.file ['x']) := by
      rw [sample_linux]
      split_ifs <;> exact nofun
    unfold sampleSynced put
    rw [Function.update_of_ne h2, Function.update_of_ne (hlog 2), Function.update_of_ne h1,
      Function.update_of_ne (hlog 1)]
    show graft (gitDir [] 1) (sampleCheckout (sub sampleCopied (gitDir [] 1))) sampleCopied
      (gitDir [] 2 ++ r) = graft (gitDir [] 1)
        (sampleCheckout (sub sampleCopied (gitDir [] 1))) sampleCopied (gitDir [] 1 ++ r)
    rw [graft_append, gitDir_append (k := 2), graft_of_not (not_gitDir (hapart.not_under _)),
      ← gitDir_append, sample_two, show sub sampleCopied (gitDir [] 1) = _ from sample_waited.linux]
    exact (if_neg hx).symm

theorem sample_rsync : Alone (Rsync sampleEnv.again sampleEnv.base 3) 2 .start
    (sampleEnv.checkedOut sampleCopied) .done sampleSynced := by
  have h1 : Rsync sampleEnv.again sampleEnv.base 3 2 .start (sampleEnv.checkedOut sampleCopied) .run
      (put (sampleEnv.checkedOut sampleCopied) (logFile [] 2) (.file [])) := by
    apply Rsync.shell (by decide) (by decide) (by decide +kernel)
    intro x hx
    have hnone : sampleEnv.checkedOut sampleCopied (logFile [] 2) = none := by decide +kernel
    rw [show sampleEnv.checkedOut sampleCopied (logFile sampleEnv.base 2) = none from hnone] at hx
    cases hx
  have h2 := (Alone.refl.tail h1).tail (.send (r := [['a']]) (x := .file ['y']) (by decide +kernel)
    (by decide) (by decide +kernel) (by decide +kernel))
  exact h2.tail (.done sample_same)

theorem sample_plain (r : Path) (x : Word) : sampleEnv.linux r ≠ some (.link x) := by
  rw [sample_linux]
  split_ifs <;> exact nofun

/-- The `rsync` to `subdir2` has ended, and the one to `subdir3` has not begun. -/
theorem mirrored_three : ∃ c : Call sampleEnv 3 sampleStore, c.rsyncs.pc 2 = .done ∧
    sub c.rsyncs.mem (gitDir sampleEnv.base 1) = sampleEnv.checkout sampleEnv.linux ∧
    (∀ t, c.rsyncs.pc t = .done →
      sub c.rsyncs.mem (gitDir sampleEnv.base t) = sampleEnv.checkout sampleEnv.linux) ∧
    (∀ t, c.rsyncs.pc t ≠ .astray) ∧
    ∀ q, (∀ k, 1 ≤ k → k ≤ 3 → ¬ subdir sampleEnv.base k <+: q) →
      (∀ k, 2 ≤ k → k ≤ 3 → q ≠ logFile sampleEnv.base k) → c.rsyncs.mem q = sampleStore q := by
  let c : Call sampleEnv 3 sampleStore :=
    ⟨⟨Function.update (fun _ => .start) 3 .done, sampleCopied⟩,
      ⟨Function.update (fun _ => .start) 2 .done, sampleSynced⟩,
      sample_copy.reach (fun _ => .start) rfl, fun i h3 hi => .inl (by
        rw [Nat.le_antisymm hi h3]
        rfl), sample_rsync.reach (fun _ => .start) rfl⟩
  exact ⟨c, rfl, mirrored (.inl rfl) (fun r x _ => sample_plain r x) sample_ready .nil nofun (by decide) c⟩

end RsyncSnap
