import Mathlib.Data.Finset.Image
import Mathlib.Data.Finset.Lattice.Fold
import Mathlib.Logic.Function.Basic
import TestUnion.Lts
import TestUnion.Qgroups.Clean

/-!
# test-subvol-qg: the groups of a run, and what the cleaning leaves of them

* `Commands`, `Commands.Spec`   the commands of `startme`, `t2-snap-random` and `t3-snap-del-random` for
                    the mounted file system, and what they do to its subvolumes and groups;
* `startme`, `snapName`, `Step`   the scripts; the loops of `t2` and `t3` go round in any order, and a
                    command of theirs may fail;
* `Fresh`           the file system before `startme`: quotas are off, and no snapshot is there;
* `Inv`             a group and a relation for every subvolume that was ever made, and a name for no more
                    than one subvolume;
* `cleaned_groups`  the cleaning after a run leaves the groups of the subvolumes that are still there.
-/

namespace Qgroups

open Lts

/-- the group of a subvolume -/
def subvolGroup (id : ℕ) : Qgroup := ⟨0, id⟩

def oneOne : Qgroup := ⟨1, 1⟩

/-- `quotas` says whether quotas are on, `ids` are the subvolumes below the top level, `entry` names those
in `$m`, and `used` are the ids that were ever given. -/
structure Commands (σ : Type*) extends Btrfs σ where
  quotas : σ → Bool
  ids : σ → Finset ℕ
  entry : σ → Word → Option ℕ
  used : σ → Finset ℕ
  quotaEnable : σ → σ
  create : Word → σ → σ
  assign : Word → Word → σ → σ
  /-- `snapshot -i`, with the group and the name -/
  snapshot : Word → Word → σ → Option σ
  delete : Word → σ → Option σ

section
variable {σ : Type*} (C : Commands σ)

/-- The part of the state that is not about groups. -/
structure SameTree (s s' : σ) : Prop where
  ids : C.ids s' = C.ids s
  entry : C.entry s' = C.entry s
  used : C.used s' = C.used s

/-- A snapshot to a name that is taken goes into the directory of that name. -/
structure Made (g : Qgroup) (n : Word) (id : ℕ) (s s' : σ) : Prop where
  quotas : C.quotas s' = true
  new : id ∉ C.used s
  used : C.used s' = insert id (C.used s)
  ids : C.ids s' = insert id (C.ids s)
  groups : C.groups s' = insert (subvolGroup id) (C.groups s)
  relations : C.relations s' = insert (subvolGroup id, g) (C.relations s)
  entry : C.entry s' =
    if C.entry s n = none then Function.update (C.entry s) n (some id) else C.entry s

/-- The group of a subvolume outlives it. -/
structure Deleted (n : Word) (id : ℕ) (s s' : σ) : Prop where
  quotas : C.quotas s' = C.quotas s
  old : C.entry s n = some id
  used : C.used s' = C.used s
  ids : C.ids s' = (C.ids s).erase id
  groups : C.groups s' = C.groups s
  relations : C.relations s' = C.relations s
  entry : C.entry s' = Function.update (C.entry s) n none

/-- The groups are those of the subvolumes when quotas are switched on; where they are on already nothing
happens.  The group commands need quotas. -/
structure Commands.Spec : Prop where
  quotaEnable_quotas : ∀ s, C.quotas (C.quotaEnable s) = true
  quotaEnable_tree : ∀ s, SameTree C s (C.quotaEnable s)
  quotaEnable_groups : ∀ s, C.quotas s = false →
    C.groups (C.quotaEnable s) = (insert 5 (C.ids s)).image subvolGroup
  quotaEnable_relations : ∀ s, C.quotas s = false → C.relations (C.quotaEnable s) = ∅
  create_quotas : ∀ g s, C.quotas (C.create g s) = C.quotas s
  create_tree : ∀ g s, SameTree C s (C.create g s)
  create_groups : ∀ (g : Qgroup) s, C.quotas s = true →
    C.groups (C.create g.text s) = insert g (C.groups s)
  create_relations : ∀ g s, C.relations (C.create g s) = C.relations s
  assign_quotas : ∀ g p s, C.quotas (C.assign g p s) = C.quotas s
  assign_tree : ∀ g p s, SameTree C s (C.assign g p s)
  assign_groups : ∀ g p s, C.groups (C.assign g p s) = C.groups s
  assign_relations : ∀ (g p : Qgroup) s, C.quotas s = true → g ∈ C.groups s → p ∈ C.groups s →
    C.relations (C.assign g.text p.text s) = insert (g, p) (C.relations s)
  snapshot : ∀ (g : Qgroup) n s s', C.quotas s = true → C.snapshot g.text n s = some s' →
    ∃ id, Made C g n id s s'
  delete : ∀ n s s', C.delete n s = some s' → ∃ id, Deleted C n id s s'

/-! ## the scripts -/

/-- `startme`, up to the windows -/
def startme (hereid : ℕ) (s : σ) : σ :=
  C.assign (subvolGroup hereid).text oneOne.text (C.create oneOne.text (C.quotaEnable s))

/-- `snap$RANDOM$RANDOM-$c` -/
def snapName (random : Word) (c : ℕ) : Word := "snap".toList ++ random ++ '-' :: Nat.toDigits 10 c

/-- the file system, and the counter of `t2` -/
structure St (σ : Type*) where
  disk : σ
  c : ℕ

inductive Act where
  | snap (random : Word)
  | del (name : Word)

/-- A round of `t2` or of `t3`.  What `t3` takes from the output of `ls` may be any line of it. -/
inductive Step : St σ → Act → St σ → Prop
  | snap {s : St σ} {random} (digits : ∀ c ∈ random, c.isDigit = true) :
    Step s (.snap random)
      ⟨(C.snapshot oneOne.text (snapName random s.c) s.disk).getD s.disk, s.c + 1⟩
  | del {s : St σ} {name} :
    Step s (.del name) ⟨(C.delete name s.disk).getD s.disk, s.c⟩

/-- Quotas are off, and no snapshot of an earlier run is left. -/
structure Fresh (hereid : ℕ) (s : σ) : Prop where
  quotas : C.quotas s = false
  used : insert 5 (C.ids s) ⊆ C.used s
  top : 5 ∉ C.ids s
  here : hereid ∈ insert 5 (C.ids s)
  entry : ∀ n id, C.entry s n = some id → id ∈ C.ids s ∧ id ≠ hereid
  inj : ∀ n n' id, C.entry s n = some id → C.entry s n' = some id → n = n'
  names : ∀ random c, (∀ x ∈ random, x.isDigit = true) → C.entry s (snapName random c) = none

/-- what holds after `startme` and any rounds; `s` is the file system before it -/
structure Inv (hereid : ℕ) (s : σ) (t : St σ) : Prop where
  quotas : C.quotas t.disk = true
  used : C.used s ⊆ C.used t.disk
  ids : C.ids t.disk ⊆ C.ids s ∪ C.used t.disk \ C.used s
  here : hereid ∈ insert 5 (C.ids t.disk)
  groups : C.groups t.disk =
    insert oneOne ((insert 5 (C.ids s) ∪ C.used t.disk \ C.used s).image subvolGroup)
  relations : C.relations t.disk =
    (insert hereid (C.used t.disk \ C.used s)).image fun id => (subvolGroup id, oneOne)
  entry : ∀ n id, C.entry t.disk n = some id → id ∈ C.ids t.disk ∧ id ≠ hereid
  inj : ∀ n n' id, C.entry t.disk n = some id → C.entry t.disk n' = some id → n = n'
  names : ∀ random c, t.c ≤ c → (∀ x ∈ random, x.isDigit = true) →
    C.entry t.disk (snapName random c) = none

end

section
variable {σ : Type*} {C : Commands σ} {hereid id : ℕ} {s u v : σ} {t t' : St σ} {a : Act} {n : Word}

/-- The counter tells the names apart, whatever the random digits are. -/
theorem snapName_inj {random random' : Word} {c c' : ℕ} (h : ∀ x ∈ random, x.isDigit = true)
    (h' : ∀ x ∈ random', x.isDigit = true) (heq : snapName random c = snapName random' c') :
    c = c' := by
  have hminus {random : Word} (h : ∀ x ∈ random, x.isDigit = true) :
      '-' ∉ "snap".toList ++ random := by
    intro hmem
    rcases List.mem_append.mp hmem with hsnap | hdigit
    · exact absurd hsnap (by decide)
    · exact absurd (h '-' hdigit) (by decide)
  exact toDigits_inj (split_at_sep (hminus h) (hminus h') heq).2

theorem startme_inv (hC : C.Spec) (h : Fresh C hereid s) :
    Inv C hereid s ⟨startme C hereid s, 1⟩ := by
  have hq := hC.quotaEnable_tree s
  have hc := hC.create_tree oneOne.text (C.quotaEnable s)
  have ha := hC.assign_tree (subvolGroup hereid).text oneOne.text
    (C.create oneOne.text (C.quotaEnable s))
  have hids : C.ids (startme C hereid s) = C.ids s := ha.ids.trans (hc.ids.trans hq.ids)
  have hentry : C.entry (startme C hereid s) = C.entry s := ha.entry.trans (hc.entry.trans hq.entry)
  have hused : C.used (startme C hereid s) = C.used s := ha.used.trans (hc.used.trans hq.used)
  have hgroups : C.groups (C.create oneOne.text (C.quotaEnable s)) =
      insert oneOne ((insert 5 (C.ids s)).image subvolGroup) := by
    rw [hC.create_groups _ _ (hC.quotaEnable_quotas s), hC.quotaEnable_groups s h.quotas]
  have hon : C.quotas (C.create oneOne.text (C.quotaEnable s)) = true :=
    (hC.create_quotas _ _).trans (hC.quotaEnable_quotas s)
  have hrelations : C.relations (startme C hereid s) = {(subvolGroup hereid, oneOne)} := by
    unfold startme
    rw [hC.assign_relations _ _ _ hon, hC.create_relations, hC.quotaEnable_relations s h.quotas]
    · rfl
    · rw [hgroups]
      exact Finset.mem_insert_of_mem (Finset.mem_image_of_mem _ h.here)
    · rw [hgroups]
      exact Finset.mem_insert_self _ _
  refine ⟨(hC.assign_quotas _ _ _).trans hon, ?_, ?_, ?_, ?_, ?_, ?_, ?_, ?_⟩ <;> dsimp only
  · rw [hused]
  · rw [hids]
    exact Finset.subset_union_left
  · rw [hids]
    exact h.here
  · rw [hused, Finset.sdiff_self, Finset.union_empty]
    exact (hC.assign_groups _ _ _).trans hgroups
  · rw [hused, Finset.sdiff_self, hrelations]
    rfl
  · rw [hids, hentry]
    exact h.entry
  · rw [hentry]
    exact h.inj
  · intro random c _ hdigits
    rw [hentry]
    exact h.names random c hdigits

/-- The new subvolume gets the next name, with a group of its own below `1/1`. -/
theorem Inv.made (h : Inv C hereid s t) (hfresh : Fresh C hereid s) {random : Word}
    (hdigits : ∀ c ∈ random, c.isDigit = true)
    (hmade : Made C oneOne (snapName random t.c) id t.disk u) : Inv C hereid s ⟨u, t.c + 1⟩ := by
  have hnew : id ∉ C.used s := fun hmem => hmade.new (h.used hmem)
  have hmore : C.used u \ C.used s = insert id (C.used t.disk \ C.used s) := by
    rw [hmade.used, Finset.insert_sdiff_of_notMem _ hnew]
  have hlive : ∀ i ∈ insert 5 (C.ids t.disk), i ∈ C.used t.disk := by
    intro i hi
    rcases Finset.mem_insert.mp hi with rfl | hi
    · exact h.used (hfresh.used (Finset.mem_insert_self _ _))
    · rcases Finset.mem_union.mp (h.ids hi) with hi | hi
      · exact h.used (hfresh.used (Finset.mem_insert_of_mem hi))
      · exact (Finset.mem_sdiff.mp hi).1
  have hentry : C.entry u = Function.update (C.entry t.disk) (snapName random t.c) (some id) := by
    rw [hmade.entry, if_pos (h.names random t.c (Nat.le_refl _) hdigits)]
  have hold {n : Word} {i : ℕ} (hn : C.entry t.disk n = some i) : i ≠ id := by
    rintro rfl
    exact hmade.new (hlive i (Finset.mem_insert_of_mem (h.entry n i hn).1))
  refine ⟨hmade.quotas, ?_, ?_, ?_, ?_, ?_, ?_, ?_, ?_⟩ <;> dsimp only
  · rw [hmade.used]
    exact h.used.trans (Finset.subset_insert _ _)
  · rw [hmade.ids, hmore, Finset.union_insert]
    exact Finset.insert_subset_insert _ h.ids
  · rw [hmade.ids, Finset.insert_comm]
    exact Finset.mem_insert_of_mem h.here
  · rw [hmade.groups, h.groups, hmore, Finset.union_insert, Finset.image_insert, Finset.insert_comm]
  · rw [hmade.relations, h.relations, hmore, Finset.insert_comm, Finset.image_insert _ id]
  · intro n i hn
    rw [hentry] at hn
    rw [hmade.ids]
    by_cases hname : n = snapName random t.c
    · rw [hname, Function.update_self] at hn
      cases hn
      refine ⟨Finset.mem_insert_self _ _, ?_⟩
      rintro rfl
      exact hmade.new (hlive _ h.here)
    · rw [Function.update_of_ne hname] at hn
      exact ⟨Finset.mem_insert_of_mem (h.entry n i hn).1, (h.entry n i hn).2⟩
  · intro n n' i hn hn'
    rw [hentry] at hn hn'
    by_cases hname : n = snapName random t.c <;> by_cases hname' : n' = snapName random t.c
    · rw [hname, hname']
    · rw [hname, Function.update_self] at hn
      rw [Function.update_of_ne hname'] at hn'
      cases hn
      exact absurd rfl (hold hn')
    · rw [hname', Function.update_self] at hn'
      rw [Function.update_of_ne hname] at hn
      cases hn'
      exact absurd rfl (hold hn)
    · rw [Function.update_of_ne hname] at hn
      rw [Function.update_of_ne hname'] at hn'
      exact h.inj n n' i hn hn'
  · intro random' c hc hdigits'
    rw [hentry, Function.update_of_ne]
    · exact h.names random' c (Nat.le_of_succ_le hc) hdigits'
    · intro heq
      have := snapName_inj hdigits' hdigits heq
      omega

/-- The subvolume goes, and its group stays. -/
theorem Inv.deleted (h : Inv C hereid s t) (hdel : Deleted C n id t.disk u) :
    Inv C hereid s ⟨u, t.c⟩ := by
  have hother {n' : Word} {i : ℕ} (hn' : C.entry u n' = some i) :
      n' ≠ n ∧ C.entry t.disk n' = some i := by
    rw [hdel.entry] at hn'
    have hne : n' ≠ n := by
      rintro rfl
      rw [Function.update_self] at hn'
      cases hn'
    rw [Function.update_of_ne hne] at hn'
    exact ⟨hne, hn'⟩
  refine ⟨hdel.quotas.trans h.quotas, ?_, ?_, ?_, ?_, ?_, ?_, ?_, ?_⟩ <;> dsimp only
  · rw [hdel.used]
    exact h.used
  · rw [hdel.used, hdel.ids]
    exact (Finset.erase_subset _ _).trans h.ids
  · rw [hdel.ids]
    rcases Finset.mem_insert.mp h.here with hfive | hmem
    · rw [hfive]
      exact Finset.mem_insert_self _ _
    · exact Finset.mem_insert_of_mem
        (Finset.mem_erase.mpr ⟨(h.entry n id hdel.old).2.symm, hmem⟩)
  · rw [hdel.groups, hdel.used]
    exact h.groups
  · rw [hdel.relations, hdel.used]
    exact h.relations
  · intro n' i hn'
    obtain ⟨hne, hold⟩ := hother hn'
    obtain ⟨hmem, hhere⟩ := h.entry n' i hold
    rw [hdel.ids]
    refine ⟨Finset.mem_erase.mpr ⟨?_, hmem⟩, hhere⟩
    rintro rfl
    exact hne (h.inj n' n i hold hdel.old)
  · intro n' n'' i hn' hn''
    exact h.inj n' n'' i (hother hn').2 (hother hn'').2
  · intro random c hc hdigits
    rw [hdel.entry]
    by_cases hname : snapName random c = n
    · rw [hname, Function.update_self]
    · rw [Function.update_of_ne hname]
      exact h.names random c hc hdigits

theorem Inv.later (h : Inv C hereid s t) : Inv C hereid s ⟨t.disk, t.c + 1⟩ where
  quotas := h.quotas
  used := h.used
  ids := h.ids
  here := h.here
  groups := h.groups
  relations := h.relations
  entry := h.entry
  inj := h.inj
  names random c hc := h.names random c (Nat.le_of_succ_le hc)

theorem Inv.step (hC : C.Spec) (hfresh : Fresh C hereid s) (h : Inv C hereid s t)
    (hst : Step C t a t') : Inv C hereid s t' := by
  cases hst with
  | @snap random digits =>
    cases hcall : C.snapshot oneOne.text (snapName random t.c) t.disk with
    | none => exact h.later
    | some u =>
      obtain ⟨id, hmade⟩ := hC.snapshot oneOne _ _ _ h.quotas hcall
      exact h.made hfresh digits hmade
  | @del name =>
    cases hcall : C.delete name t.disk with
    | none => exact h
    | some u =>
      obtain ⟨id, hdel⟩ := hC.delete _ _ _ hcall
      exact h.deleted hdel

/-- The next snapshot does not go into an old one. -/
theorem Inv.free (h : Inv C hereid s t) (hst : Step C t a t') {random : Word}
    (ha : a = .snap random) : C.entry t.disk (snapName random t.c) = none := by
  cases hst with
  | snap digits =>
    cases ha
    exact h.names random t.c (Nat.le_refl _) digits
  | del => cases ha

/-! ## the cleaning -/

theorem cleaned_dead {B : Btrfs σ} {ids : Finset ℕ} {dir : Word}
    {subvolList qgroupShow qgroupShowP : List (List Char)} (hdir : dir ≠ [])
    (hids : ShowsSubvols ids subvolList) (hshow : ShowsGroups (B.groups s) qgroupShow)
    (htable : ShowsParents (B.groups s) (B.relations s) qgroupShowP)
    (hchild : ∀ r ∈ B.relations s, r.2.level ≠ 0) :
    Cleaned B s ((B.groups s).filter (Dead ids))
      (cleanDeadQgroups B dir true subvolList qgroupShow qgroupShowP s) := by
  have hargs : ∀ w ∈ deadRows subvolList qgroupShow,
      ∃ q ∈ B.groups s, q.level = 0 ∧ w = q.text := by
    intro w hw
    obtain ⟨q, hq, hdead, rfl⟩ := (mem_deadRows hids hshow).mp hw
    exact ⟨q, hq, hdead.1, rfl⟩
  obtain ⟨D, hD, hclean⟩ := (Cleaned.start B s).args hchild htable hargs
  have heq : (B.groups s).filter (Dead ids) = D := by
    ext q
    rw [hD, Finset.mem_filter, mem_deadRows hids hshow]
    constructor
    · intro hq
      exact .inr ⟨q, hq.1, hq.2, rfl⟩
    · intro hq
      rcases hq with hq | ⟨q', hq', hdead, htext⟩
      · exact absurd hq (Finset.notMem_empty q)
      · rw [text_inj htext]
        exact ⟨hq', hdead⟩
  unfold cleanDeadQgroups removeGroup
  rw [if_neg hdir, if_neg nofun, words_listDeadQgroups hids hshow, heq]
  exact hclean

theorem dead_subvolGroup {ids : Finset ℕ} : Dead ids (subvolGroup id) ↔ id ∉ insert 5 ids := by
  unfold Dead subvolGroup
  rw [Finset.mem_insert, not_or]
  exact and_iff_right rfl

theorem Inv.groups_live (h : Inv C hereid s t) :
    C.groups t.disk \ (C.groups t.disk).filter (Dead (C.ids t.disk)) =
      insert oneOne ((insert 5 (C.ids t.disk)).image subvolGroup) := by
  have hone : ¬ Dead (C.ids t.disk) oneOne := fun hd => absurd hd.1 (by decide)
  have hlive : insert 5 (C.ids t.disk) ⊆ insert 5 (C.ids s) ∪ C.used t.disk \ C.used s := by
    rw [Finset.insert_union]
    exact Finset.insert_subset_insert _ h.ids
  ext q
  rw [Finset.mem_sdiff, Finset.mem_filter, not_and, h.groups, Finset.mem_insert, Finset.mem_image,
    Finset.mem_insert, Finset.mem_image]
  constructor
  · intro hq
    obtain ⟨hmem, hdead⟩ := hq
    rcases hmem with rfl | ⟨id, hid, rfl⟩
    · exact .inl rfl
    · right
      refine ⟨id, ?_, rfl⟩
      by_contra hnot
      exact hdead (.inr ⟨id, hid, rfl⟩) (dead_subvolGroup.mpr hnot)
  · intro hq
    rcases hq with rfl | ⟨id, hid, rfl⟩
    · exact ⟨.inl rfl, fun _ => hone⟩
    · exact ⟨.inr ⟨id, hlive hid, rfl⟩, fun _ hd => dead_subvolGroup.mp hd hid⟩

theorem Inv.relations_live (h : Inv C hereid s t) (hfresh : Fresh C hereid s) :
    ((C.relations t.disk).filter fun r =>
        r.1 ∉ (C.groups t.disk).filter (Dead (C.ids t.disk))) =
      (insert hereid (C.ids t.disk \ C.ids s)).image fun id => (subvolGroup id, oneOne) := by
  ext r
  rw [Finset.mem_filter, h.relations, Finset.mem_image, Finset.mem_image]
  constructor
  · intro hr
    obtain ⟨⟨id, hid, rfl⟩, hdead⟩ := hr
    refine ⟨id, ?_, rfl⟩
    rcases Finset.mem_insert.mp hid with rfl | hid
    · exact Finset.mem_insert_self _ _
    · obtain ⟨hused, hnew⟩ := Finset.mem_sdiff.mp hid
      have hgroup : subvolGroup id ∈ C.groups t.disk := by
        rw [h.groups]
        exact Finset.mem_insert_of_mem
          (Finset.mem_image_of_mem _ (Finset.mem_union_right _ hid))
      have hin : id ∈ insert 5 (C.ids t.disk) := by
        by_contra hnot
        exact hdead (Finset.mem_filter.mpr ⟨hgroup, dead_subvolGroup.mpr hnot⟩)
      rcases Finset.mem_insert.mp hin with rfl | hin
      · exact absurd (hfresh.used (Finset.mem_insert_self _ _)) hnew
      · exact Finset.mem_insert_of_mem (Finset.mem_sdiff.mpr
          ⟨hin, fun hmem => hnew (hfresh.used (Finset.mem_insert_of_mem hmem))⟩)
  · intro hr
    obtain ⟨id, hid, rfl⟩ := hr
    rcases Finset.mem_insert.mp hid with rfl | hid
    · refine ⟨⟨id, Finset.mem_insert_self _ _, rfl⟩, ?_⟩
      intro hmem
      exact dead_subvolGroup.mp (Finset.mem_filter.mp hmem).2 h.here
    · obtain ⟨hlive, hnot⟩ := Finset.mem_sdiff.mp hid
      refine ⟨⟨id, ?_, rfl⟩, ?_⟩
      · rcases Finset.mem_union.mp (h.ids hlive) with hold | hnew
        · exact absurd hold hnot
        · exact Finset.mem_insert_of_mem hnew
      · intro hmem
        exact dead_subvolGroup.mp (Finset.mem_filter.mp hmem).2 (Finset.mem_insert_of_mem hlive)

end

/-! ## a snapshot that comes and goes -/

section Examples

structure Volume where
  quotas : Bool
  groups : Finset Qgroup
  relations : Finset (Qgroup × Qgroup)
  ids : Finset ℕ
  entry : Word → Option ℕ
  used : Finset ℕ
  top : ℕ
  used_lt : ∀ i ∈ used, i < top

theorem lt_succ_of_used {used : Finset ℕ} {top : ℕ} (h : ∀ i ∈ used, i < top) :
    ∀ i ∈ insert top used, i < top + 1 := by
  intro i hi
  rcases Finset.mem_insert.mp hi with rfl | hi
  · exact Nat.lt_succ_self _
  · exact Nat.lt_succ_of_lt (h i hi)

def ofText (w : Word) : Qgroup where
  level := Nat.ofDigitChars 10 (w.takeWhile Char.isDigit) 0
  id := Nat.ofDigitChars 10 (w.drop ((w.takeWhile Char.isDigit).length + 1)) 0

theorem ofText_text (q : Qgroup) : ofText q.text = q := by
  have hlevel : q.text.takeWhile Char.isDigit = Nat.toDigits 10 q.level :=
    takeWhile_append_cons (fun _ ha => isDigit_of_mem_toDigits ha) rfl
  have hid : q.text.drop ((Nat.toDigits 10 q.level).length + 1) = Nat.toDigits 10 q.id := by
    unfold Qgroup.text
    rw [List.drop_length_add_append]
    rfl
  unfold ofText
  rw [hlevel, hid, Nat.ofDigitChars_ten_toDigits, Nat.ofDigitChars_ten_toDigits]

/-- The commands on a volume; the next id is `top`. -/
def volume : Commands Volume where
  groups := Volume.groups
  relations := Volume.relations
  remove g p s := { s with relations := s.relations.erase (ofText g, ofText p) }
  destroy g s :=
    if ∃ r ∈ s.relations, r.1 = ofText g ∨ r.2 = ofText g then s
    else { s with groups := s.groups.erase (ofText g) }
  groups_remove _ _ _ := rfl
  relations_remove g p s := by rw [ofText_text, ofText_text]
  groups_destroy g s := by
    rw [ofText_text]
    split <;> rfl
  relations_destroy g s := by split <;> rfl
  quotas := Volume.quotas
  ids := Volume.ids
  entry := Volume.entry
  used := Volume.used
  quotaEnable s :=
    if s.quotas then s
    else { s with
      quotas := true
      groups := (insert 5 s.ids).image subvolGroup
      relations := ∅ }
  create g s := if s.quotas then { s with groups := insert (ofText g) s.groups } else s
  assign g p s :=
    if s.quotas then { s with relations := insert (ofText g, ofText p) s.relations } else s
  snapshot g n s :=
    some {
      quotas := s.quotas
      groups := insert (subvolGroup s.top) s.groups
      relations := insert (subvolGroup s.top, ofText g) s.relations
      ids := insert s.top s.ids
      entry := if s.entry n = none then Function.update s.entry n (some s.top) else s.entry
      used := insert s.top s.used
      top := s.top + 1
      used_lt := lt_succ_of_used s.used_lt }
  delete n s := (s.entry n).map fun id =>
    { s with ids := s.ids.erase id, entry := Function.update s.entry n none }

theorem volume_spec : volume.Spec where
  quotaEnable_quotas s := by
    show Volume.quotas (if s.quotas then s else _) = true
    cases h : s.quotas with
    | true => exact h
    | false => rfl
  quotaEnable_tree s := by
    show SameTree volume s (if s.quotas then s else _)
    split <;> exact ⟨rfl, rfl, rfl⟩
  quotaEnable_groups s h := by
    show Volume.groups (if Volume.quotas s then s else _) = _
    rw [if_neg (show ¬ s.quotas = true from Bool.eq_false_iff.mp h)]
    rfl
  quotaEnable_relations s h := by
    show Volume.relations (if Volume.quotas s then s else _) = _
    rw [if_neg (show ¬ s.quotas = true from Bool.eq_false_iff.mp h)]
  create_quotas g s := by
    show Volume.quotas (if s.quotas then _ else s) = s.quotas
    split <;> rfl
  create_tree g s := by
    show SameTree volume s (if s.quotas then _ else s)
    split <;> exact ⟨rfl, rfl, rfl⟩
  create_groups g s h := by
    show Volume.groups (if Volume.quotas s then _ else s) = _
    rw [if_pos (show s.quotas = true from h), ofText_text]
    rfl
  create_relations g s := by
    show Volume.relations (if s.quotas then _ else s) = s.relations
    split <;> rfl
  assign_quotas g p s := by
    show Volume.quotas (if s.quotas then _ else s) = s.quotas
    split <;> rfl
  assign_tree g p s := by
    show SameTree volume s (if s.quotas then _ else s)
    split <;> exact ⟨rfl, rfl, rfl⟩
  assign_groups g p s := by
    show Volume.groups (if s.quotas then _ else s) = s.groups
    split <;> rfl
  assign_relations g p s h _ _ := by
    show Volume.relations (if Volume.quotas s then _ else s) = _
    rw [if_pos (show s.quotas = true from h), ofText_text, ofText_text]
    rfl
  snapshot g n s s' hon h := by
    cases h
    refine ⟨s.top, hon, ?_, rfl, rfl, rfl, ?_, rfl⟩
    · intro hmem
      exact absurd (s.used_lt _ hmem) (Nat.lt_irrefl _)
    · show insert (_, ofText g.text) s.relations = _
      rw [ofText_text]
      rfl
  delete n s s' h := by
    obtain ⟨id, hid, rfl⟩ := Option.map_eq_some_iff.mp h
    exact ⟨id, rfl, hid, rfl, rfl, rfl, rfl, rfl⟩

theorem emptyVolume_lt : ∀ i ∈ ({5, 256} : Finset ℕ), i < 257 := by decide

def emptyVolume : Volume := ⟨false, ∅, ∅, ∅, fun _ => none, {5, 256}, 257, emptyVolume_lt⟩

theorem fresh_emptyVolume : Fresh volume 5 emptyVolume where
  quotas := rfl
  used := by decide
  top := Finset.notMem_empty 5
  here := Finset.mem_insert_self 5 _
  entry _ _ h := by cases h
  inj _ _ _ h := by cases h
  names _ _ _ := rfl

def goneName : Word := "snap7-1".toList

/-- the volume after `startme`, a snapshot and its deletion -/
def goneDisk : Volume :=
  ((volume.snapshot oneOne.text goneName (startme volume 5 emptyVolume)).bind
    (volume.delete goneName)).getD emptyVolume

def goneRows : List (List Char) :=
  ["qgroupid rfer excl parent\n".toList, "0/5 0 0 1/1\n".toList, "0/257 0 0 1/1\n".toList,
    "1/1 0 0 ---\n".toList]

theorem goneDisk_groups : goneDisk.groups = {⟨1, 1⟩, ⟨0, 5⟩, ⟨0, 257⟩} := by decide

theorem goneDisk_relations :
    goneDisk.relations = {(⟨0, 5⟩, ⟨1, 1⟩), (⟨0, 257⟩, ⟨1, 1⟩)} := by decide

theorem goneRow {q : Qgroup} {rest : List Char} (hq : (q, oneOne) ∈ goneDisk.relations)
    (hrest : rest = "0 0 1/1\n".toList) :
    ParentLine goneDisk.relations q (q.text ++ ' ' :: rest) := by
  refine ⟨' ', rest, ['0'], ['0'], oneOne.text, [], rfl, rfl, by rw [hrest]; decide, ?_⟩
  refine .inr ⟨[oneOne], List.cons_ne_nil _ _, rfl, fun p => ?_⟩
  rw [List.mem_singleton]
  refine ⟨fun h => h ▸ hq, fun h => ?_⟩
  rw [goneDisk_relations] at h
  simp only [Finset.mem_insert, Finset.mem_singleton, Prod.mk.injEq] at h
  rcases h with ⟨-, rfl⟩ | ⟨-, rfl⟩ <;> rfl

theorem shows_goneRows : ShowsParents goneDisk.groups goneDisk.relations goneRows := by
  have h5 : ParentLine goneDisk.relations ⟨0, 5⟩ "0/5 0 0 1/1\n".toList :=
    @goneRow ⟨0, 5⟩ "0 0 1/1\n".toList (by decide) rfl
  have h257 : ParentLine goneDisk.relations ⟨0, 257⟩ "0/257 0 0 1/1\n".toList :=
    @goneRow ⟨0, 257⟩ "0 0 1/1\n".toList (by decide) rfl
  have h11 : ParentLine goneDisk.relations ⟨1, 1⟩ "1/1 0 0 ---\n".toList := by
    refine ⟨' ', "0 0 ---\n".toList, ['0'], ['0'], "---".toList, [], rfl, by decide, by decide,
      .inl ⟨by decide, ?_⟩⟩
    intro p hp
    rw [goneDisk_relations] at hp
    simp at hp
  refine ⟨?_, ?_⟩
  · intro l hl
    simp only [goneRows, List.mem_cons, List.not_mem_nil, or_false] at hl
    rcases hl with rfl | rfl | rfl | rfl
    · exact .inr header_rows
    · exact .inl ⟨_, by decide, h5⟩
    · exact .inl ⟨_, by decide, h257⟩
    · exact .inl ⟨_, by decide, h11⟩
  · intro q hq
    rw [goneDisk_groups] at hq
    simp only [Finset.mem_insert, Finset.mem_singleton] at hq
    rcases hq with rfl | rfl | rfl
    · exact ⟨_, by simp [goneRows], h11⟩
    · exact ⟨_, by simp [goneRows], h5⟩
    · exact ⟨_, by simp [goneRows], h257⟩

end Examples

end Qgroups
