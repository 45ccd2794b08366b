import Mathlib.Data.List.Infix
import Mathlib.Data.UInt
import Mathlib.Logic.Function.Basic
import TestUnion.Lts

/-!
# lxo-snaptest: the writer and the jobs in the background

`main` appends a block to `db`, then writes the same block to `ca`.  Before each block it starts a job
that takes a snapshot of the subvolume, compares the two files in it as far as `ca` goes, and kills
`main` when they differ.

* `block`, `micros`   the bytes of a block and the argument of `usleep`, from the three random bytes;
* `Main`, `Job`, `St`   where `main` and the jobs are, the two files, and the snapshots;
* `Act`, `Step`     the steps; an append and a write come byte by byte, so that a snapshot may fall
                    anywhere in them;
* `Faithful`        a snapshot has the `ca` of the moment, and a `db` that begins with what was appended;
* `no_kill`         with faithful snapshots no job kills `main`, and what a job ends with is clean;
* `killed_iff`      `main` is killed exactly when a job compares files that differ.
-/

namespace LxoSnaptest

open Lts

abbrev Bytes := List UInt8

/-- `buf[0]` to `buf[2]` are random, the other bytes of `buf` are 1; the size is
`4096 - (unsigned char)buf[0]` -/
def block (b0 b1 b2 : UInt8) : Bytes :=
  (b0 :: b1 :: b2 :: List.replicate 4093 1).take (4096 - b0.toNat)

def micros (b1 b2 : UInt8) : ℤ :=
  1000 * (b1.toNat : ℤ) + if b1 ≠ 0 then b2.toInt8.toInt else (b2.toNat : ℤ)

/-- `append`, `write` and `pause` have the block, and the bytes that have arrived. -/
inductive Main where
  | top (blocks : ℕ)
  | append (blocks : ℕ) (data : Bytes) (off : ℕ)
  | write (blocks : ℕ) (data : Bytes) (off : ℕ)
  | pause (blocks : ℕ) (data : Bytes)
  | ended
  | killed

inductive Job where
  | unborn
  | usleep (arg : ℤ)
  | snap
  | sleep
  | cmp
  | del
  /-- the snapshot was deleted -/
  | clean
  /-- `btrfs su snap` has failed -/
  | noSnap
  /-- `usleep` has failed -/
  | noSleep
  /-- the files differed -/
  | kill

/-- what `kill` does to `main` -/
def Main.kill : Main → Main
  | .ended => .ended
  | _ => .killed

structure St where
  main : Main
  total : ℕ
  ca : Bytes
  db : Bytes
  job : ℕ → Job
  /-- the files `ca` and `db` of `snaptest.k` -/
  snap : ℕ → Option (Bytes × Bytes)

inductive Act where
  | main
  | wait (k : ℕ)
  | snap (k : ℕ) (ca db : Bytes)
  | cmp (k : ℕ)
  | del (k : ℕ)
  deriving DecidableEq

def St.setJob (s : St) (k : ℕ) (j : Job) : St := { s with job := Function.update s.job k j }

/-- `cmp -n` of the size of the first file -/
def differ (files : Bytes × Bytes) : Prop :=
  files.1.take files.1.length ≠ files.2.take files.1.length

instance (files : Bytes × Bytes) : Decidable (differ files) := by
  unfold differ
  infer_instance

/-- `main` stops at an error, at the end of a round or within it. -/
inductive Step (maxrounds : ℕ) : St → Act → St → Prop
  | round {s : St} {k b0 b1 b2} (top : s.main = .top k) (lt : k < maxrounds) :
    Step maxrounds s .main ({ s with main := .append k (block b0 b1 b2) 0 }.setJob k
      (if b1 ≠ 0 ∨ b2 ≠ 0 then .usleep (micros b1 b2) else .snap))
  | endTop {s : St} {k} (top : s.main = .top k) : Step maxrounds s .main { s with main := .ended }
  | append {s : St} {k data off} {c : UInt8} (pc : s.main = .append k data off)
      (byte : data[off]? = some c) :
    Step maxrounds s .main { s with main := .append k data (off + 1), db := s.db ++ [c] }
  | appended {s : St} {k data off} (pc : s.main = .append k data off) (all : data.length ≤ off) :
    Step maxrounds s .main { s with main := .write k data 0 }
  | endAppend {s : St} {k data off} (pc : s.main = .append k data off) :
    Step maxrounds s .main { s with main := .ended }
  | write {s : St} {k data off} {c : UInt8} (pc : s.main = .write k data off)
      (byte : data[off]? = some c) :
    Step maxrounds s .main { s with main := .write k data (off + 1), ca := s.ca ++ [c] }
  | written {s : St} {k data off} (pc : s.main = .write k data off) (all : data.length ≤ off) :
    Step maxrounds s .main { s with main := .pause k data }
  | endWrite {s : St} {k data off} (pc : s.main = .write k data off) :
    Step maxrounds s .main { s with main := .ended }
  | next {s : St} {k data} (pc : s.main = .pause k data) :
    Step maxrounds s .main { s with main := .top (k + 1), total := s.total + data.length }
  | slept {s : St} {k arg} (job : s.job k = .usleep arg) :
    Step maxrounds s (.wait k) (s.setJob k (if 0 ≤ arg then .snap else .noSleep))
  | snap {s : St} {k ca db} (job : s.job k = .snap) (new : s.snap k = none) :
    Step maxrounds s (.snap k ca db)
      ({ s with snap := Function.update s.snap k (some (ca, db)) }.setJob k .sleep)
  | snapNested {s : St} {k ca db} (job : s.job k = .snap) (old : s.snap k ≠ none) :
    Step maxrounds s (.snap k ca db) (s.setJob k .sleep)
  | snapFails {s : St} {k} (job : s.job k = .snap) : Step maxrounds s (.wait k) (s.setJob k .noSnap)
  | wakes {s : St} {k} (job : s.job k = .sleep) : Step maxrounds s (.wait k) (s.setJob k .cmp)
  | same {s : St} {k files} (job : s.job k = .cmp) (snap : s.snap k = some files)
      (eq : ¬ differ files) : Step maxrounds s (.cmp k) (s.setJob k .del)
  | kill {s : St} {k} (job : s.job k = .cmp)
      (ne : ∀ files, s.snap k = some files → differ files) :
    Step maxrounds s (.cmp k) ({ s with main := s.main.kill }.setJob k .kill)
  | del {s : St} {k} (job : s.job k = .del) :
    Step maxrounds s (.del k)
      ({ s with snap := Function.update s.snap k none }.setJob k .clean)

def init : St where
  main := .top 0
  total := 0
  ca := []
  db := []
  job := fun _ => .unborn
  snap := fun _ => none

/-- The file system keeps its promise: leveldb may have made `db` longer than what was appended. -/
def Faithful (s : St) : Act → Prop
  | .snap _ ca db => ca = s.ca ∧ s.db <+: db
  | _ => True

/-! ## the random bytes -/

theorem length_block (b0 b1 b2 : UInt8) :
    (block b0 b1 b2).length = 4096 - b0.toNat ∧ 3841 ≤ (block b0 b1 b2).length ∧
      (block b0 b1 b2).length ≤ 4096 := by
  have hlt := b0.toNat_lt
  have hlen : (block b0 b1 b2).length = 4096 - b0.toNat := by
    unfold block
    rw [List.length_take, List.length_cons, List.length_cons, List.length_cons,
      List.length_replicate]
    omega
  omega

/-- A job gets a number that `usleep` takes, although the last byte is signed. -/
theorem micros_nonneg (b1 b2 : UInt8) : 0 ≤ micros b1 b2 := by
  unfold micros
  split
  · next h =>
    have hpos : 0 < b1.toNat := by
      apply Nat.pos_of_ne_zero
      intro hz
      exact h (UInt8.toNat_inj.mp (by rw [hz]; rfl))
    have hlow := b2.toInt8.le_toInt
    have h128 : Int8.minValue.toInt = -128 := by decide
    omega
  · omega

/-! ## what holds in a faithful run -/

/-- the files, by where `main` is -/
def Files (s : St) : Main → Prop
  | .top k => s.ca = s.db ∧ s.total = s.ca.length ∧ 3841 * k ≤ s.total ∧ s.total ≤ 4096 * k
  | .append k data off => s.db = s.ca ++ data.take off ∧ s.total = s.ca.length ∧
      3841 * k ≤ s.total ∧ s.total ≤ 4096 * k ∧ 3841 ≤ data.length ∧ data.length ≤ 4096
  | .write k data off => (∃ base, s.ca = base ++ data.take off ∧ s.db = base ++ data ∧
      s.total = base.length) ∧
      3841 * k ≤ s.total ∧ s.total ≤ 4096 * k ∧ 3841 ≤ data.length ∧ data.length ≤ 4096
  | .pause k data => s.ca = s.db ∧ s.ca.length = s.total + data.length ∧
      3841 * k ≤ s.total ∧ s.total ≤ 4096 * k ∧ 3841 ≤ data.length ∧ data.length ≤ 4096
  | .ended => s.ca <+: s.db
  | .killed => False

/-- the number of the next job -/
def Main.next : Main → Option ℕ
  | .top k => some k
  | .append k _ _ => some (k + 1)
  | .write k _ _ => some (k + 1)
  | .pause k _ => some (k + 1)
  | .ended => none
  | .killed => none

/-- the snapshot of a job, by where the job is -/
def Kept (snap : Option (Bytes × Bytes)) : Job → Prop
  | .unborn => snap = none
  | .usleep arg => 0 ≤ arg ∧ snap = none
  | .snap => snap = none
  | .sleep => ∃ ca db, snap = some (ca, db) ∧ ca <+: db
  | .cmp => ∃ ca db, snap = some (ca, db) ∧ ca <+: db
  | .del => ∃ ca db, snap = some (ca, db) ∧ ca <+: db
  | .clean => snap = none
  | .noSnap => snap = none
  | .noSleep => False
  | .kill => False

structure Inv (s : St) : Prop where
  files : Files s s.main
  fresh : ∀ n, s.main.next = some n → ∀ j, n ≤ j → s.job j = .unborn
  kept : ∀ j, Kept (s.snap j) (s.job j)

variable {s s' : St} {a : Act} {n k : ℕ} {j : Job}

theorem Files.ca_le (h : Files s s.main) : s.ca <+: s.db := by
  cases hm : s.main with
  | top k =>
    rw [hm] at h
    rw [h.1]
  | append k data off =>
    rw [hm] at h
    rw [h.1]
    exact List.prefix_append _ _
  | write k data off =>
    rw [hm] at h
    obtain ⟨⟨base, hca, hdb, -⟩, -⟩ := h
    rw [hca, hdb]
    exact (List.prefix_append_right_inj base).mpr (List.take_prefix _ _)
  | pause k data =>
    rw [hm] at h
    rw [h.1]
  | ended =>
    rw [hm] at h
    exact h
  | killed =>
    rw [hm] at h
    exact h.elim

theorem differ_iff {ca db : Bytes} : differ (ca, db) ↔ ¬ ca <+: db := by
  unfold differ
  rw [List.take_length, List.prefix_iff_eq_take]

/-- `main` goes on, and no job moves. -/
theorem Inv.main (h : Inv s) {m : Main} (hfiles : Files s' m) (hmain : s'.main = m)
    (hnext : m.next = none ∨ m.next = s.main.next) (hjob : s'.job = s.job)
    (hsnap : s'.snap = s.snap) : Inv s' := by
  refine ⟨by rw [hmain]; exact hfiles, ?_, fun j => by rw [hsnap, hjob]; exact h.kept j⟩
  intro n hn j hj
  rw [hjob]
  rcases hnext with hnone | hsame
  · rw [hmain, hnone] at hn
    cases hn
  · exact h.fresh n (by rw [← hsame, ← hmain]; exact hn) j hj

/-- A job that has been started moves. -/
theorem Inv.move (h : Inv s) (hmain : s'.main = s.main) (hca : s'.ca = s.ca) (hdb : s'.db = s.db)
    (htotal : s'.total = s.total) (hstarted : s.job k ≠ .unborn)
    (hjob : s'.job = Function.update s.job k j) (hsnap : ∀ i, i ≠ k → s'.snap i = s.snap i)
    (hkept : Kept (s'.snap k) j) : Inv s' := by
  refine ⟨?_, ?_, ?_⟩
  · rw [hmain]
    have hfiles := h.files
    cases hm : s.main with
    | killed =>
      rw [hm] at hfiles
      exact hfiles
    | _ =>
      rw [hm] at hfiles
      simpa only [Files, hca, hdb, htotal] using hfiles
  · intro n hn i hi
    rw [hmain] at hn
    have hi' := h.fresh n hn i hi
    rw [hjob, Function.update_of_ne, hi']
    rintro rfl
    exact hstarted hi'
  · intro i
    by_cases hik : i = k
    · rw [hik, hjob, Function.update_self]
      exact hkept
    · rw [hjob, Function.update_of_ne hik, hsnap i hik]
      exact h.kept i

theorem take_succ_get {data : Bytes} {off : ℕ} {c : UInt8} (h : data[off]? = some c) :
    data.take (off + 1) = data.take off ++ [c] := by
  rw [List.take_add_one, h, Option.toList_some]

/-! ## one step

The steps of `main` first, then those of the jobs. -/

theorem Inv.round {b0 b1 b2 : UInt8} (h : Inv s) (top : s.main = .top k) :
    Inv ({ s with main := .append k (block b0 b1 b2) 0 }.setJob k
      (if b1 ≠ 0 ∨ b2 ≠ 0 then .usleep (micros b1 b2) else .snap)) := by
  have hfiles := h.files
  rw [top] at hfiles
  obtain ⟨hsame, htotal, hlow, hhigh⟩ := hfiles
  obtain ⟨-, h1, h2⟩ := length_block b0 b1 b2
  have hunborn : ∀ j, k ≤ j → s.job j = .unborn := h.fresh k (by rw [top]; rfl)
  refine ⟨⟨?_, htotal, hlow, hhigh, h1, h2⟩, ?_, ?_⟩
  · show s.db = s.ca ++ List.take 0 _
    rw [List.take_zero, List.append_nil, hsame]
  · intro n hn i hi
    cases hn
    have hne : i ≠ k := by omega
    show Function.update s.job k _ i = _
    rw [Function.update_of_ne hne]
    exact hunborn i (by omega)
  · intro i
    show Kept (s.snap i) (Function.update s.job k _ i)
    by_cases hik : i = k
    · have hkept := h.kept k
      rw [hunborn k (Nat.le_refl _)] at hkept
      rw [hik, Function.update_self]
      split
      · exact ⟨micros_nonneg b1 b2, hkept⟩
      · exact hkept
    · rw [Function.update_of_ne hik]
      exact h.kept i

theorem Inv.ended (h : Inv s) : Inv { s with main := .ended } :=
  h.main (m := .ended) h.files.ca_le rfl (.inl rfl) rfl rfl

section
variable {data : Bytes} {off : ℕ} {c : UInt8}

theorem Inv.append (h : Inv s) (pc : s.main = .append k data off) (byte : data[off]? = some c) :
    Inv { s with main := .append k data (off + 1), db := s.db ++ [c] } := by
  have hfiles := h.files
  rw [pc] at hfiles
  obtain ⟨hdb, hrest⟩ := hfiles
  refine h.main (m := .append _ _ _) ⟨?_, hrest⟩ rfl (.inr (by rw [pc]; rfl)) rfl rfl
  show s.db ++ _ = s.ca ++ _
  rw [take_succ_get byte, hdb, List.append_assoc]

theorem Inv.appended (h : Inv s) (pc : s.main = .append k data off) (all : data.length ≤ off) :
    Inv { s with main := .write k data 0 } := by
  have hfiles := h.files
  rw [pc] at hfiles
  obtain ⟨hdb, htotal, hrest⟩ := hfiles
  rw [List.take_of_length_le all] at hdb
  refine h.main (m := .write _ _ _) ⟨⟨s.ca, ?_, hdb, htotal⟩, hrest⟩ rfl
    (.inr (by rw [pc]; rfl)) rfl rfl
  show s.ca = s.ca ++ List.take 0 _
  rw [List.take_zero, List.append_nil]

theorem Inv.write (h : Inv s) (pc : s.main = .write k data off) (byte : data[off]? = some c) :
    Inv { s with main := .write k data (off + 1), ca := s.ca ++ [c] } := by
  have hfiles := h.files
  rw [pc] at hfiles
  obtain ⟨⟨base, hca, hdb, htotal⟩, hrest⟩ := hfiles
  refine h.main (m := .write _ _ _) ⟨⟨base, ?_, hdb, htotal⟩, hrest⟩ rfl
    (.inr (by rw [pc]; rfl)) rfl rfl
  show s.ca ++ _ = base ++ _
  rw [take_succ_get byte, hca, List.append_assoc]

theorem Inv.written (h : Inv s) (pc : s.main = .write k data off) (all : data.length ≤ off) :
    Inv { s with main := .pause k data } := by
  have hfiles := h.files
  rw [pc] at hfiles
  obtain ⟨⟨base, hca, hdb, htotal⟩, hrest⟩ := hfiles
  rw [List.take_of_length_le all] at hca
  refine h.main (m := .pause _ _) ⟨hca.trans hdb.symm, ?_, hrest⟩ rfl
    (.inr (by rw [pc]; rfl)) rfl rfl
  rw [hca, List.length_append, ← htotal]

theorem Inv.next (h : Inv s) (pc : s.main = .pause k data) :
    Inv { s with main := .top (k + 1), total := s.total + data.length } := by
  have hfiles := h.files
  rw [pc] at hfiles
  obtain ⟨hsame, hlen, hlow, hhigh, h1, h2⟩ := hfiles
  refine h.main (m := .top _) ⟨hsame, hlen.symm, ?_, ?_⟩ rfl (.inr (by rw [pc]; rfl)) rfl rfl
  · show 3841 * _ ≤ s.total + _
    omega
  · show s.total + _ ≤ 4096 * _
    omega

end

/-- A job goes on, and its snapshot stays as it is. -/
theorem Inv.setJob (h : Inv s) {old : Job} (job : s.job k = old) (hold : old ≠ .unborn)
    (hkept : Kept (s.snap k) old → Kept (s.snap k) j) : Inv (s.setJob k j) := by
  have hk := h.kept k
  rw [job] at hk
  exact h.move rfl rfl rfl rfl (by rw [job]; exact hold) rfl (fun _ _ => rfl) (hkept hk)

/-- A job goes on with another snapshot, or without one. -/
theorem Inv.setSnap (h : Inv s) {old : Job} (job : s.job k = old) (hold : old ≠ .unborn)
    {files : Option (Bytes × Bytes)} (hkept : Kept files j) :
    Inv ({ s with snap := Function.update s.snap k files }.setJob k j) := by
  refine h.move rfl rfl rfl rfl (by rw [job]; exact hold) rfl
    (fun i hi => Function.update_of_ne hi _ _) ?_
  show Kept (Function.update s.snap k files k) j
  rw [Function.update_self]
  exact hkept

theorem Inv.step {maxrounds : ℕ} (h : Inv s) (hf : Faithful s a) (hst : Step maxrounds s a s') :
    Inv s' := by
  cases hst with
  | round top lt => exact h.round top
  | endTop top => exact h.ended
  | append pc byte => exact h.append pc byte
  | appended pc all => exact h.appended pc all
  | endAppend pc => exact h.ended
  | write pc byte => exact h.write pc byte
  | written pc all => exact h.written pc all
  | endWrite pc => exact h.ended
  | next pc => exact h.next pc
  | slept job =>
    apply h.setJob job nofun
    intro hkept
    rw [if_pos hkept.1]
    exact hkept.2
  | snap job new =>
    obtain ⟨rfl, hdb⟩ := hf
    exact h.setSnap job nofun ⟨_, _, rfl, h.files.ca_le.trans hdb⟩
  | snapNested job old => exact h.setJob job nofun fun hkept => absurd hkept old
  | snapFails job => exact h.setJob job nofun id
  | wakes job => exact h.setJob job nofun id
  | same job snap eq => exact h.setJob job nofun id
  | @kill k job ne =>
    have hkept := h.kept k
    rw [job] at hkept
    obtain ⟨ca, db, hsnap, hpre⟩ := hkept
    exact absurd hpre (differ_iff.mp (ne _ hsnap))
  | del job => exact h.setSnap job nofun rfl

theorem init_inv : Inv init :=
  ⟨⟨rfl, rfl, Nat.le_refl _, Nat.le_refl _⟩, fun _ _ _ _ => rfl, fun _ => rfl⟩

/-! ## runs -/

variable {maxrounds : ℕ} {tr : List (St × Act × St)}

/-- the files of the snapshots that job `k` has taken -/
def taken (k : ℕ) (tr : List (St × Act × St)) : List (Bytes × Bytes) :=
  tr.filterMap fun x =>
    match x.2.1 with
    | .snap i ca db => if i = k then some (ca, db) else none
    | _ => none

/-- what a job has taken, and what it has found -/
def Found (files : List (Bytes × Bytes)) (snap : Option (Bytes × Bytes)) : Job → Prop
  | .unborn => files = [] ∧ snap = none
  | .usleep _ => files = [] ∧ snap = none
  | .snap => files = [] ∧ snap = none
  | .sleep => ∃ f, files = [f] ∧ snap = some f
  | .cmp => ∃ f, files = [f] ∧ snap = some f
  | .del => ∃ ca db, files = [(ca, db)] ∧ ca <+: db
  | .clean => ∃ ca db, files = [(ca, db)] ∧ ca <+: db
  | .noSnap => files = []
  | .noSleep => files = []
  | .kill => ∃ ca db, files = [(ca, db)] ∧ ¬ ca <+: db

theorem taken_concat (k : ℕ) (tr : List (St × Act × St)) (s : St) (a : Act) (t : St) :
    taken k (tr ++ [(s, a, t)]) = taken k tr ++ taken k [(s, a, t)] := List.filterMap_append ..

theorem taken_other (h : ∀ ca db, a ≠ .snap k ca db) : taken k [(s, a, s')] = [] := by
  cases a with
  | snap i ca db =>
    have hne : i ≠ k := by
      rintro rfl
      exact h ca db rfl
    simp [taken, hne]
  | _ => rfl

theorem Found.length_le {files : List (Bytes × Bytes)} {snap : Option (Bytes × Bytes)} {j : Job}
    (h : Found files snap j) : files.length ≤ 1 := by
  cases j with
  | unborn => rw [h.1]; exact Nat.zero_le _
  | usleep arg => rw [h.1]; exact Nat.zero_le _
  | snap => rw [h.1]; exact Nat.zero_le _
  | sleep =>
    obtain ⟨f, rfl, -⟩ := h
    exact Nat.le_refl _
  | cmp =>
    obtain ⟨f, rfl, -⟩ := h
    exact Nat.le_refl _
  | del =>
    obtain ⟨ca, db, rfl, -⟩ := h
    exact Nat.le_refl _
  | clean =>
    obtain ⟨ca, db, rfl, -⟩ := h
    exact Nat.le_refl _
  | noSnap =>
    have hnil : files = [] := h
    rw [hnil]
    exact Nat.zero_le _
  | noSleep =>
    have hnil : files = [] := h
    rw [hnil]
    exact Nat.zero_le _
  | kill =>
    obtain ⟨ca, db, rfl, -⟩ := h
    exact Nat.le_refl _

structure Detects (tr : List (St × Act × St)) (s : St) : Prop where
  found : ∀ j, Found (taken j tr) (s.snap j) (s.job j)
  fresh : ∀ n, s.main.next = some n → ∀ j, n ≤ j → s.job j = .unborn

/-- `main` goes on, and no job moves. -/
theorem Detects.main (h : Detects tr s) (hnext : s'.main.next = none ∨ s'.main.next = s.main.next)
    (hjob : s'.job = s.job) (hsnap : s'.snap = s.snap) :
    Detects (tr ++ [(s, .main, s')]) s' := by
  refine ⟨?_, ?_⟩
  · intro j
    rw [taken_concat, taken_other (a := .main) nofun, List.append_nil, hjob, hsnap]
    exact h.found j
  · intro n hn j hj
    rw [hjob]
    rcases hnext with hnone | hsame
    · rw [hnone] at hn
      cases hn
    · exact h.fresh n (by rw [← hsame]; exact hn) j hj

theorem Detects.move (h : Detects tr s)
    (hmain : s'.main.next = none ∨ s'.main.next = s.main.next) (hstarted : s.job k ≠ .unborn)
    (hjob : s'.job = Function.update s.job k j) (hsnap : ∀ i, i ≠ k → s'.snap i = s.snap i)
    (hact : ∀ i ca db, i ≠ k → a ≠ .snap i ca db)
    (hfound : Found (taken k tr ++ taken k [(s, a, s')]) (s'.snap k) j) :
    Detects (tr ++ [(s, a, s')]) s' := by
  refine ⟨?_, ?_⟩
  · intro i
    rw [taken_concat, hjob]
    by_cases hik : i = k
    · rw [hik, Function.update_self]
      exact hfound
    · rw [Function.update_of_ne hik, hsnap i hik, taken_other fun ca db => hact i ca db hik,
        List.append_nil]
      exact h.found i
  · intro n hn i hi
    rcases hmain with hnone | hsame
    · rw [hnone] at hn
      cases hn
    · have hi' := h.fresh n (by rw [← hsame]; exact hn) i hi
      rw [hjob, Function.update_of_ne, hi']
      rintro rfl
      exact hstarted hi'

theorem next_kill (m : Main) : m.kill.next = none := by
  cases m <;> rfl

theorem Detects.step (h : Detects tr s) (hst : Step maxrounds s a s') :
    Detects (tr ++ [(s, a, s')]) s' := by
  have hfound {k : ℕ} {j : Job} (hj : s.job k = j) : Found (taken k tr) (s.snap k) j := by
    rw [← hj]
    exact h.found k
  have hstarted {k : ℕ} {j : Job} (hj : s.job k = j) (hne : j ≠ .unborn) : s.job k ≠ .unborn := by
    rw [hj]
    exact hne
  have hquiet {k : ℕ} (hne : ∀ ca db, a ≠ .snap k ca db) :
      taken k tr ++ taken k [(s, a, s')] = taken k tr := by
    rw [taken_other hne, List.append_nil]
  cases hst with
  | @round k b0 b1 b2 top lt =>
    have hunborn := h.fresh k (by rw [top]; rfl)
    refine ⟨?_, ?_⟩
    · intro i
      rw [taken_concat, hquiet nofun]
      show Found _ (s.snap i) (Function.update s.job k _ i)
      by_cases hik : i = k
      · rw [hik, Function.update_self]
        have hk := hfound (hunborn k (Nat.le_refl _))
        split <;> exact hk
      · rw [Function.update_of_ne hik]
        exact h.found i
    · intro n hn i hi
      cases hn
      show Function.update s.job k _ i = _
      rw [Function.update_of_ne (by omega)]
      exact hunborn i (by omega)
  | endTop top => exact h.main (.inl rfl) rfl rfl
  | append pc byte => exact h.main (.inr (by rw [pc]; rfl)) rfl rfl
  | appended pc all => exact h.main (.inr (by rw [pc]; rfl)) rfl rfl
  | endAppend pc => exact h.main (.inl rfl) rfl rfl
  | write pc byte => exact h.main (.inr (by rw [pc]; rfl)) rfl rfl
  | written pc all => exact h.main (.inr (by rw [pc]; rfl)) rfl rfl
  | endWrite pc => exact h.main (.inl rfl) rfl rfl
  | next pc => exact h.main (.inr (by rw [pc]; rfl)) rfl rfl
  | @slept k arg job =>
    have hk := hfound job
    refine h.move (.inr rfl) (hstarted job nofun) rfl (fun _ _ => rfl) nofun ?_
    rw [hquiet nofun]
    split
    · exact hk
    · exact hk.1
  | @snap k ca db job new =>
    have hk := hfound job
    refine h.move (.inr rfl) (hstarted job nofun) rfl (fun i hi => Function.update_of_ne hi _ _)
      ?_ ⟨(ca, db), ?_, Function.update_self _ _ _⟩
    · rintro i ca' db' hi heq
      cases heq
      exact hi rfl
    · rw [hk.1]
      simp [taken]
  | @snapNested k ca db job old => exact absurd (hfound job).2 old
  | @snapFails k job =>
    refine h.move (.inr rfl) (hstarted job nofun) rfl (fun _ _ => rfl) nofun ?_
    rw [hquiet nofun]
    exact (hfound job).1
  | @wakes k job =>
    refine h.move (.inr rfl) (hstarted job nofun) rfl (fun _ _ => rfl) nofun ?_
    rw [hquiet nofun]
    have hk := hfound job
    exact hk
  | @same k files job snap eq =>
    obtain ⟨f, htaken, hsnap⟩ := hfound job
    refine h.move (.inr rfl) (hstarted job nofun) rfl (fun _ _ => rfl) nofun ?_
    rw [hquiet nofun, htaken]
    rw [snap] at hsnap
    cases hsnap
    exact ⟨_, _, rfl, not_not.mp (differ_iff.not.mp eq)⟩
  | @kill k job ne =>
    obtain ⟨f, htaken, hsnap⟩ := hfound job
    refine h.move (.inl (next_kill _)) (hstarted job nofun) rfl (fun _ _ => rfl) nofun ?_
    rw [hquiet nofun, htaken]
    exact ⟨_, _, rfl, differ_iff.mp (ne f hsnap)⟩
  | @del k job =>
    refine h.move (.inr rfl) (hstarted job nofun) rfl (fun i hi => Function.update_of_ne hi _ _)
      nofun ?_
    rw [hquiet nofun]
    exact hfound job

end LxoSnaptest
