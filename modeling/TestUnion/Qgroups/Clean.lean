import TestUnion.Carry
import TestUnion.Qgroups.Scripts
import Mathlib.Data.Finset.SDiff

/-!
# clean-dead-qgroups: exactly the dead groups go

* `SubvolLine`, `GroupLine`, `ParentLine`, `Header`   the lines of the listings;
* `ShowsSubvols`, `ShowsGroups`, `ShowsParents`   the listings show all there is, and `Subvols`, in which
                    paths may have newlines;
* `mem_readIds`     the keys that the first loop makes are the ids of the subvolumes;
* `Dead`            a group of level 0 other than `0/5` that has no subvolume;
* `mem_deadRows`    `list-dead-qgroups` prints the dead groups;
* `Cleaned`         the state after some groups have been removed with their relations;
* `clean_dead_qgroups`   the three scripts together.
-/

namespace Qgroups

variable {q q' : Qgroup} {ids : Finset ℕ} {groups : Finset Qgroup}
  {relations : Finset (Qgroup × Qgroup)} {l rest : List Char} {lines : List (List Char)} {w : Word}
  {cap : Option Word} {id : ℕ} {c : Char}

/-! ## the listings -/

def SubvolLine (id : ℕ) (l : List Char) : Prop :=
  ∃ rest, l = 'I' :: 'D' :: ' ' :: (Nat.toDigits 10 id ++ ' ' :: rest)

/-- A row begins with its group. -/
def GroupLine (q : Qgroup) (l : List Char) : Prop :=
  ∃ c rest, isSpace c = true ∧ l = q.text ++ c :: rest

/-- the parents of a group, separated by commas, or `---` -/
def ParentsText (relations : Finset (Qgroup × Qgroup)) (q : Qgroup) (w : Word) : Prop :=
  (w = ['-', '-', '-'] ∧ ∀ p, (q, p) ∉ relations) ∨
    ∃ ps : List Qgroup, ps ≠ [] ∧ w = [','].intercalate (ps.map Qgroup.text) ∧
      ∀ p, p ∈ ps ↔ (q, p) ∈ relations

/-- the row `id rfer excl parents` -/
def ParentLine (relations : Finset (Qgroup × Qgroup)) (q : Qgroup) (l : List Char) : Prop :=
  ∃ c rest rfer excl parents more, isSpace c = true ∧ l = q.text ++ c :: rest ∧
    words isSpace rest = rfer :: excl :: parents :: more ∧ ParentsText relations q parents

/-- a line above the rows -/
structure Header (l : List Char) : Prop where
  start : ∀ d rest, l = '0' :: '/' :: d :: rest → d.isDigit = false
  word : ∀ q : Qgroup, (words isSpace l).getD 0 [] ≠ q.text

structure ShowsSubvols (ids : Finset ℕ) (lines : List (List Char)) : Prop where
  line : ∀ l ∈ lines, ∃ id ∈ ids, SubvolLine id l
  all : ∀ id ∈ ids, ∃ l ∈ lines, SubvolLine id l

/-- Lines without `ID ` come from a path that has newlines. -/
structure Subvols (ids : Finset ℕ) (lines : List (List Char)) : Prop where
  line : ∀ l ∈ lines, (∃ id ∈ ids, SubvolLine id l) ∨ ¬ ['I', 'D', ' '] <:+: l
  all : ∀ id ∈ ids, ∃ l ∈ lines, SubvolLine id l

theorem ShowsSubvols.subvols (h : ShowsSubvols ids lines) : Subvols ids lines :=
  ⟨fun l hl => .inl (h.line l hl), h.all⟩

structure ShowsGroups (groups : Finset Qgroup) (lines : List (List Char)) : Prop where
  line : ∀ l ∈ lines, (∃ q ∈ groups, GroupLine q l) ∨ Header l
  all : ∀ q ∈ groups, ∃ l ∈ lines, GroupLine q l

structure ShowsParents (groups : Finset Qgroup) (relations : Finset (Qgroup × Qgroup))
    (lines : List (List Char)) : Prop where
  line : ∀ l ∈ lines, (∃ q ∈ groups, ParentLine relations q l) ∨ Header l
  all : ∀ q ∈ groups, ∃ l ∈ lines, ParentLine relations q l

/-! ## texts -/

theorem isDigit_of_isSpace (h : isSpace c = true) : c.isDigit = false := by
  unfold isSpace at h
  simp only [Bool.or_eq_true, decide_eq_true_eq] at h
  rcases h with ((((rfl | rfl) | rfl) | rfl) | rfl) | rfl <;> rfl

theorem text_chars (h : c ∈ q.text) : c.isDigit = true ∨ c = '/' := by
  unfold Qgroup.text at h
  rcases List.mem_append.mp h with h | h
  · exact .inl (isDigit_of_mem_toDigits h)
  · rcases List.mem_cons.mp h with h | h
    · exact .inr h
    · exact .inl (isDigit_of_mem_toDigits h)

theorem text_ne_nil (q : Qgroup) : q.text ≠ [] := by
  unfold Qgroup.text
  exact List.append_ne_nil_of_right_ne_nil _ (List.cons_ne_nil _ _)

theorem text_inj (h : q.text = q'.text) : q = q' := by
  obtain ⟨h1, h2⟩ := split_at_sep (notMem_toDigits (by decide) _) (notMem_toDigits (by decide) _) h
  have hlevel : q.level = q'.level := toDigits_inj h1
  have hid : q.id = q'.id := toDigits_inj h2
  cases q
  cases q'
  exact congr (congrArg Qgroup.mk hlevel) hid

/-- A character that is neither a digit nor a slash is in no text. -/
theorem notMem_text (hd : c.isDigit = false) (hs : c ≠ '/') : c ∉ q.text := by
  intro h
  rcases text_chars h with hc | hc
  · rw [hd] at hc
    cases hc
  · exact hs hc

theorem isSpace_text : ∀ c ∈ q.text, isSpace c = false := by
  intro c hc
  by_contra h
  rw [Bool.not_eq_false] at h
  rcases text_chars hc with hd | rfl
  · rw [isDigit_of_isSpace h] at hd
    cases hd
  · cases h

theorem text_zero (hq : q.level = 0) : q.text = '0' :: '/' :: Nat.toDigits 10 q.id := by
  unfold Qgroup.text
  rw [hq, Nat.toDigits_zero]
  rfl

/-! ## what the patterns match -/

theorem digits_of_line (h : c.isDigit = false) :
    (Nat.toDigits 10 id ++ c :: rest).takeWhile Char.isDigit = Nat.toDigits 10 id :=
  takeWhile_append_cons (fun _ ha => isDigit_of_mem_toDigits ha) h

theorem findId_line (h : SubvolLine id l) : findId l = some (Nat.toDigits 10 id) := by
  obtain ⟨rest, rfl⟩ := h
  have hmatch : matchId ('I' :: 'D' :: ' ' :: (Nat.toDigits 10 id ++ ' ' :: rest)) =
      some (Nat.toDigits 10 id) := by
    unfold matchId
    simp only [digits_of_line (c := ' ') rfl, Nat.toDigits_ne_nil, if_false]
  unfold findId
  rw [hmatch]
  rfl

theorem findId_none (h : ¬ ['I', 'D', ' '] <:+: l) : findId l = none := by
  induction l with
  | nil => rfl
  | cons c s ih =>
    have hstart : matchId (c :: s) = none := by
      unfold matchId
      split
      · next s' heq =>
        exfalso
        rw [heq] at h
        exact h ⟨[], s', rfl⟩
      · rfl
    rw [findId, hstart, ih fun hs => h (hs.trans (List.suffix_cons c s).isInfix)]
    rfl

theorem matchRow_zero (hq : q.level = 0) (h : GroupLine q l) :
    matchRow l = some (Nat.toDigits 10 q.id) := by
  obtain ⟨c, rest, hc, rfl⟩ := h
  rw [text_zero hq]
  unfold matchRow
  simp only [List.cons_append, digits_of_line (isDigit_of_isSpace hc), Nat.toDigits_ne_nil, if_false]

/-- The rows of higher levels do not match. -/
theorem matchRow_high (hq : q.level ≠ 0) (h : GroupLine q l) : matchRow l = none := by
  obtain ⟨c, rest, hc, rfl⟩ := h
  unfold matchRow
  split
  · next s heq =>
    exfalso
    have hsplit : Nat.toDigits 10 q.level ++ '/' :: (Nat.toDigits 10 q.id ++ c :: rest) =
        ['0'] ++ '/' :: s := by
      rw [List.singleton_append, ← heq]
      unfold Qgroup.text
      rw [List.append_assoc]
      rfl
    obtain ⟨hlevel, -⟩ := split_at_sep (notMem_toDigits (by decide) _) (by decide) hsplit
    exact hq (toDigits_inj (hlevel.trans (Nat.toDigits_zero 10).symm))
  · rfl

theorem matchRow_title (h : ∀ d rest, l = '0' :: '/' :: d :: rest → d.isDigit = false) :
    matchRow l = none := by
  unfold matchRow
  split
  · next s =>
    cases s with
    | nil => rfl
    | cons d s =>
      have hd := h d s rfl
      rw [List.takeWhile_cons_of_neg (by rw [hd]; exact nofun)]
      rfl
  · rfl

theorem numeric_toDigits (id : ℕ) : numeric (Nat.toDigits 10 id) = id := by
  unfold numeric
  rw [List.takeWhile_eq_self_iff.mpr fun _ h => isDigit_of_mem_toDigits h,
    Nat.ofDigitChars_ten_toDigits]

theorem matchNumber_toDigits (id : ℕ) : matchNumber (Nat.toDigits 10 id) = true := by
  have hlast : (Nat.toDigits 10 id).getLast? ≠ some '\n' := by
    intro h
    exact absurd (isDigit_of_mem_toDigits (List.mem_of_getLast? h)) (by decide)
  unfold matchNumber
  simp only [hlast, if_false, Bool.and_eq_true, List.all_eq_true, Bool.not_eq_true',
    List.isEmpty_eq_false_iff]
  exact ⟨Nat.toDigits_ne_nil, fun _ h => isDigit_of_mem_toDigits h⟩

/-! ## list-dead-qgroups -/

def Dead (ids : Finset ℕ) (q : Qgroup) : Prop := q.level = 0 ∧ q.id ≠ 5 ∧ q.id ∉ ids

instance (ids : Finset ℕ) (q : Qgroup) : Decidable (Dead ids q) := by unfold Dead; infer_instance

theorem readIds_eq_carry :
    readIds cap lines = (Carry.carry cap (lines.map findId)).map fun v => v.getD [] := by
  induction lines generalizing cap with
  | nil => rfl
  | cons l lines ih =>
    rw [readIds, ih]
    rfl

theorem readRows_eq_carry : readRows cap lines = Carry.carry cap (lines.map matchRow) := by
  induction lines generalizing cap with
  | nil => rfl
  | cons l lines ih =>
    rw [readRows, ih]
    rfl

/-- A line that does not match adds no id: `$1` is the id of a line above it. -/
theorem mem_readIds (h : Subvols ids lines) :
    Nat.toDigits 10 id ∈ readIds none lines ↔ id ∈ ids := by
  have hkey : Nat.toDigits 10 id ∈ readIds none lines ↔
      some (Nat.toDigits 10 id) ∈ lines.map findId := by
    rw [readIds_eq_carry, ← Carry.some_mem_carry, List.mem_map]
    refine ⟨?_, fun h => ⟨_, h, rfl⟩⟩
    intro hex
    obtain ⟨v, hv, hid⟩ := hex
    cases v with
    | none => exact absurd hid.symm Nat.toDigits_ne_nil
    | some w =>
      rw [← show w = Nat.toDigits 10 id from hid]
      exact hv
  rw [hkey, List.mem_map]
  refine ⟨?_, ?_⟩
  · intro hex
    obtain ⟨l, hl, hfind⟩ := hex
    rcases h.line l hl with ⟨id', hmem, hid'⟩ | hnone
    · have heq := (findId_line hid').symm.trans hfind
      rw [← toDigits_inj (Option.some.inj heq)]
      exact hmem
    · cases (findId_none hnone).symm.trans hfind
  · intro hmem
    obtain ⟨l, hl, hid⟩ := h.all id hmem
    exact ⟨l, hl, findId_line hid⟩

/-- `$1` is undefined or the id of a group of level 0. -/
def IdOf (groups : Finset Qgroup) (v : Option Word) : Prop :=
  v = none ∨ ∃ q ∈ groups, q.level = 0 ∧ v = some (Nat.toDigits 10 q.id)

/-- A row that does not match repeats the id of a row above it. -/
theorem readRows_idOf (hline : ∀ l ∈ lines, (∃ q ∈ groups, GroupLine q l) ∨ Header l)
    (hcap : IdOf groups cap) : ∀ v ∈ readRows cap lines, IdOf groups v := by
  induction lines generalizing cap with
  | nil => exact fun _ h => by cases h
  | cons l lines ih =>
    have hcap' : IdOf groups ((matchRow l).or cap) := by
      rcases hline l List.mem_cons_self with ⟨q, hq, hl⟩ | hl
      · by_cases hlevel : q.level = 0
        · rw [matchRow_zero hlevel hl]
          exact .inr ⟨q, hq, hlevel, rfl⟩
        · rw [matchRow_high hlevel hl]
          exact hcap
      · rw [matchRow_title hl.start]
        exact hcap
    intro v hv
    rw [readRows] at hv
    rcases List.mem_cons.mp hv with rfl | hv
    · exact hcap'
    · exact ih (fun l' hl' => hline l' (List.mem_cons_of_mem _ hl')) hcap' v hv

theorem mem_readRows (hq : q.level = 0) (hl : l ∈ lines) (h : GroupLine q l) :
    some (Nat.toDigits 10 q.id) ∈ readRows cap lines := by
  induction lines generalizing cap with
  | nil => cases hl
  | cons l' lines ih =>
    rw [readRows]
    rcases List.mem_cons.mp hl with rfl | hl
    · rw [matchRow_zero hq h]
      exact List.mem_cons_self
    · exact List.mem_cons_of_mem _ (ih hl)

theorem deadRow_some {keys : List Word} : deadRow keys (some (Nat.toDigits 10 id)) = some w ↔
    id ≠ 5 ∧ Nat.toDigits 10 id ∉ keys ∧ w = '0' :: '/' :: Nat.toDigits 10 id := by
  unfold deadRow
  simp only [Option.getD_some, numeric_toDigits, matchNumber_toDigits]
  by_cases h5 : id = 5
  · simp [h5]
  · by_cases hk : Nat.toDigits 10 id ∈ keys
    · simp [h5, hk]
    · simp [h5, hk, eq_comm]

theorem mem_deadRows {subvolList qgroupShow : List (List Char)} (hids : ShowsSubvols ids subvolList)
    (hshow : ShowsGroups groups qgroupShow) :
    w ∈ deadRows subvolList qgroupShow ↔ ∃ q ∈ groups, Dead ids q ∧ w = q.text := by
  unfold deadRows
  rw [List.mem_filterMap]
  refine ⟨?_, ?_⟩
  · intro hex
    obtain ⟨v, hv, hw⟩ := hex
    rcases readRows_idOf hshow.line (.inl rfl) v hv with rfl | ⟨q, hq, hlevel, rfl⟩
    · cases hw
    · rw [deadRow_some, mem_readIds hids.subvols] at hw
      obtain ⟨h5, hdead, rfl⟩ := hw
      exact ⟨q, hq, ⟨hlevel, h5, hdead⟩, (text_zero hlevel).symm⟩
  · intro hex
    obtain ⟨q, hq, ⟨hlevel, h5, hdead⟩, rfl⟩ := hex
    obtain ⟨l, hl, hrow⟩ := hshow.all q hq
    refine ⟨_, mem_readRows hlevel hl hrow, ?_⟩
    rw [deadRow_some, mem_readIds hids.subvols]
    exact ⟨h5, hdead, text_zero hlevel⟩

theorem isIfs_text (q : Qgroup) : q.text ≠ [] ∧ ∀ c ∈ q.text, isIfs c = false := by
  refine ⟨text_ne_nil q, fun c hc => ?_⟩
  rcases text_chars hc with hd | rfl
  · unfold isIfs
    by_contra h
    simp only [Bool.not_eq_false, Bool.or_eq_true, decide_eq_true_eq] at h
    rcases h with (rfl | rfl) | rfl <;> cases hd
  · rfl

/-- The shell splits the output into the groups again. -/
theorem words_listDeadQgroups {subvolList qgroupShow : List (List Char)}
    (hids : ShowsSubvols ids subvolList) (hshow : ShowsGroups groups qgroupShow) :
    words isIfs (listDeadQgroups subvolList qgroupShow) = deadRows subvolList qgroupShow := by
  apply words_lines
  · intro w hw
    obtain ⟨q, -, -, rfl⟩ := (mem_deadRows hids hshow).mp hw
    exact isIfs_text q
  · rfl

/-! ## remove-group -/

section
variable {σ : Type*} {B : Btrfs σ} {s u : σ} {D : Finset Qgroup}

/-- `u` is `s` without the groups in `D` and without the relations of which they are the children. -/
structure Cleaned (B : Btrfs σ) (s : σ) (D : Finset Qgroup) (u : σ) : Prop where
  groups : B.groups u = B.groups s \ D
  relations : B.relations u = (B.relations s).filter fun r => r.1 ∉ D

theorem Cleaned.start (B : Btrfs σ) (s : σ) : Cleaned B s ∅ s where
  groups := (Finset.sdiff_empty).symm
  relations := (Finset.filter_true_of_mem fun _ _ => Finset.notMem_empty _).symm

theorem foldl_remove (q : Qgroup) (ps : List Qgroup) (u : σ) :
    B.groups ((ps.map Qgroup.text).foldl (fun u p => B.remove q.text p u) u) = B.groups u ∧
      B.relations ((ps.map Qgroup.text).foldl (fun u p => B.remove q.text p u) u) =
        (B.relations u).filter fun r => ¬ (r.1 = q ∧ r.2 ∈ ps) := by
  induction ps generalizing u with
  | nil =>
    refine ⟨rfl, ?_⟩
    ext r
    simp
  | cons p ps ih =>
    obtain ⟨hgroups, hrelations⟩ := ih (B.remove q.text p.text u)
    rw [List.map_cons, List.foldl_cons]
    refine ⟨hgroups.trans (B.groups_remove _ _ _), hrelations.trans ?_⟩
    rw [B.relations_remove]
    ext r
    simp only [Finset.mem_filter, Finset.mem_erase, List.mem_cons, Prod.ext_iff, ne_eq]
    tauto

theorem fields_parents {ps : List Qgroup} (hps : ps ≠ []) :
    fields ',' ([','].intercalate (ps.map Qgroup.text)) = ps.map Qgroup.text := by
  apply fields_intercalate
  · simpa using hps
  · intro l hl
    obtain ⟨p, -, rfl⟩ := List.mem_map.mp hl
    exact notMem_text (by decide) (by decide)
  · intro l hl
    obtain ⟨p, -, rfl⟩ := List.mem_map.mp hl
    exact text_ne_nil p

/-- A list of groups is not `---`. -/
theorem parents_ne {ps : List Qgroup} (hps : ps ≠ []) :
    [','].intercalate (ps.map Qgroup.text) ≠ ['-', '-', '-'] := by
  intro h
  have hfields := fields_parents hps
  rw [h] at hfields
  obtain ⟨p, ps', rfl⟩ := List.exists_cons_of_ne_nil hps
  have hmem : '-' ∈ p.text := by
    rw [List.map_cons] at hfields
    rw [← (List.cons.inj hfields).1]
    decide
  exact notMem_text (by decide) (by decide) hmem

theorem words_parentLine (h : ParentLine relations q l) : ∃ rfer excl parents more,
    words isSpace l = q.text :: rfer :: excl :: parents :: more ∧
      ParentsText relations q parents := by
  obtain ⟨c, rest, rfer, excl, parents, more, hc, rfl, hwords, hparents⟩ := h
  refine ⟨rfer, excl, parents, more, ?_, hparents⟩
  rw [words_append_cons (text_ne_nil q) isSpace_text hc, hwords]

/-- The row of a group of level 0 takes it away, with the relations to its parents. -/
theorem Cleaned.row (h : Cleaned B s D u) (hchild : ∀ r ∈ B.relations s, r.2.level ≠ 0)
    (hq : q.level = 0) (hl : ParentLine (B.relations s) q l) :
    Cleaned B s (insert q D) (removeRow B q.text u l) := by
  obtain ⟨rfer, excl, parents, more, hwords, hparents⟩ := words_parentLine hl
  have hrow : ∃ v, removeRow B q.text u l = B.destroy q.text v ∧ B.groups v = B.groups u ∧
      B.relations v = (B.relations s).filter fun r => r.1 ∉ insert q D := by
    unfold removeRow
    rw [hwords]
    simp only [List.getD_cons_zero, List.getD_cons_succ, ne_eq, not_true_eq_false, if_false]
    refine ⟨_, rfl, ?_⟩
    rcases hparents with ⟨rfl, hnone⟩ | ⟨ps, hps, rfl, hmem⟩
    · rw [if_neg (not_not.mpr rfl)]
      refine ⟨rfl, ?_⟩
      rw [h.relations]
      apply Finset.filter_congr
      intro r hr
      have hne : r.1 ≠ q := fun e => hnone r.2 (e ▸ hr)
      simp only [Finset.mem_insert, hne, false_or]
    · rw [if_pos (parents_ne hps), fields_parents hps]
      obtain ⟨hgroups, hrelations⟩ := foldl_remove (B := B) q ps u
      refine ⟨hgroups, ?_⟩
      rw [hrelations, h.relations, Finset.filter_filter]
      apply Finset.filter_congr
      intro r hr
      have hiff : r.1 = q → r.2 ∈ ps := fun e => (hmem r.2).mpr (e ▸ hr)
      simp only [Finset.mem_insert]
      tauto
  obtain ⟨v, hv, hgroups, hrelations⟩ := hrow
  rw [hv]
  have hfree : ¬ ∃ r ∈ B.relations v, r.1 = q ∨ r.2 = q := by
    intro hex
    obtain ⟨r, hr, hrq⟩ := hex
    rw [hrelations, Finset.mem_filter] at hr
    rcases hrq with rfl | rfl
    · exact hr.2 (Finset.mem_insert_self _ _)
    · exact hchild r hr.1 hq
  refine ⟨?_, (B.relations_destroy _ _).trans hrelations⟩
  rw [B.groups_destroy, if_neg hfree, hgroups, h.groups]
  ext p
  simp only [Finset.mem_erase, Finset.mem_sdiff, Finset.mem_insert]
  tauto

/-- The other lines do nothing. -/
theorem removeRow_other (h : (words isSpace l).getD 0 [] ≠ w) : removeRow B w u l = u := by
  unfold removeRow
  exact if_pos h

theorem Cleaned.line (h : Cleaned B s D u) (hchild : ∀ r ∈ B.relations s, r.2.level ≠ 0)
    (hq : q.level = 0) (hl : (∃ q ∈ groups, ParentLine (B.relations s) q l) ∨ Header l) :
    (Cleaned B s (insert q D) (removeRow B q.text u l)) ∨
      (¬ ParentLine (B.relations s) q l ∧ removeRow B q.text u l = u) := by
  by_cases hrow : ParentLine (B.relations s) q l
  · exact .inl (h.row hchild hq hrow)
  · refine .inr ⟨hrow, removeRow_other ?_⟩
    rcases hl with ⟨q', -, hl⟩ | hl
    · obtain ⟨rfer, excl, parents, more, hwords, -⟩ := words_parentLine hl
      rw [hwords, List.getD_cons_zero]
      intro e
      rw [text_inj e] at hl
      exact hrow hl
    · exact hl.word q

/-- Once the group is gone the other lines leave it so. -/
theorem Cleaned.table (hchild : ∀ r ∈ B.relations s, r.2.level ≠ 0) (hq : q.level = 0)
    (hlines : ∀ l ∈ lines, (∃ q ∈ groups, ParentLine (B.relations s) q l) ∨ Header l)
    (h : Cleaned B s D u)
    (hrow : q ∈ D ∨ ∃ l ∈ lines, ParentLine (B.relations s) q l) :
    Cleaned B s (insert q D) (lines.foldl (removeRow B q.text) u) := by
  induction lines generalizing u D with
  | nil =>
    rcases hrow with hmem | ⟨l, hl, -⟩
    · rw [Finset.insert_eq_of_mem hmem]
      exact h
    · cases hl
  | cons l lines ih =>
    have hrest : ∀ l' ∈ lines, (∃ q ∈ groups, ParentLine (B.relations s) q l') ∨ Header l' :=
      fun l' hl' => hlines l' (List.mem_cons_of_mem _ hl')
    rw [List.foldl_cons]
    rcases h.line hchild hq (hlines l List.mem_cons_self) with hnew | ⟨hnot, hsame⟩
    · have hdone := ih hrest hnew (.inl (Finset.mem_insert_self q D))
      rwa [Finset.insert_idem] at hdone
    · rw [hsame]
      refine ih hrest h ?_
      rcases hrow with hmem | ⟨l', hl', hpl⟩
      · exact .inl hmem
      · rcases List.mem_cons.mp hl' with rfl | hl'
        · exact absurd hpl hnot
        · exact .inr ⟨l', hl', hpl⟩

/-- All the groups on the command line are removed. -/
theorem Cleaned.args {table : List (List Char)} (hchild : ∀ r ∈ B.relations s, r.2.level ≠ 0)
    (htable : ShowsParents (B.groups s) (B.relations s) table) {argv : List Word}
    (hargs : ∀ w ∈ argv, ∃ q ∈ B.groups s, q.level = 0 ∧ w = q.text) (h : Cleaned B s D u) :
    ∃ D', (∀ q, q ∈ D' ↔ q ∈ D ∨ q.text ∈ argv) ∧
      Cleaned B s D' (argv.foldl (fun u g => table.foldl (removeRow B g) u) u) := by
  induction argv generalizing u D with
  | nil => exact ⟨D, fun q => by simp, h⟩
  | cons w argv ih =>
    obtain ⟨q, hq, hlevel, rfl⟩ := hargs w List.mem_cons_self
    have hnew := h.table hchild hlevel htable.line (.inr (htable.all q hq))
    obtain ⟨D', hD', hclean⟩ := ih (fun w hw => hargs w (List.mem_cons_of_mem _ hw)) hnew
    refine ⟨D', fun q' => ?_, hclean⟩
    have htext : q'.text = q.text ↔ q' = q := ⟨text_inj, fun e => by rw [e]⟩
    rw [hD', Finset.mem_insert, List.mem_cons, htext]
    tauto

end

/-- **Exactly the dead groups go.**  The dead groups are taken away with their relations; the other
groups and the relations between them stay. -/
theorem clean_dead_qgroups {σ : Type*} {B : Btrfs σ} {s : σ} {dir : Word}
    {subvolList qgroupShow qgroupShowP : List (List Char)} (hdir : dir ≠ [])
    (hids : ShowsSubvols ids subvolList) (hshow : ShowsGroups (B.groups s) qgroupShow)
    (htable : ShowsParents (B.groups s) (B.relations s) qgroupShowP)
    (hchild : ∀ r ∈ B.relations s, r.2.level ≠ 0) :
    B.groups (cleanDeadQgroups B dir true subvolList qgroupShow qgroupShowP s) =
        B.groups s \ (B.groups s).filter (Dead ids) ∧
      B.relations (cleanDeadQgroups B dir true subvolList qgroupShow qgroupShowP s) =
        (B.relations s).filter fun r =>
          r.1 ∉ (B.groups s).filter (Dead ids) ∧ r.2 ∉ (B.groups s).filter (Dead ids) := by
  have hargs : ∀ w ∈ deadRows subvolList qgroupShow, ∃ q ∈ B.groups s, q.level = 0 ∧ w = q.text := by
    intro w hw
    obtain ⟨q, hq, hdead, rfl⟩ := (mem_deadRows hids hshow).mp hw
    exact ⟨q, hq, hdead.1, rfl⟩
  obtain ⟨D, hD, hclean⟩ := (Cleaned.start B s).args hchild htable hargs
  have hdead : D = (B.groups s).filter (Dead ids) := by
    ext q
    rw [hD, mem_deadRows hids hshow, Finset.mem_filter]
    refine ⟨?_, fun h => .inr ⟨q, h.1, h.2, rfl⟩⟩
    intro h
    rcases h with h | ⟨q', hq', hdead, htext⟩
    · exact absurd h (Finset.notMem_empty q)
    · rw [text_inj htext]
      exact ⟨hq', hdead⟩
  subst hdead
  have hrun : cleanDeadQgroups B dir true subvolList qgroupShow qgroupShowP s =
      (deadRows subvolList qgroupShow).foldl (fun u g => qgroupShowP.foldl (removeRow B g) u) s := by
    unfold cleanDeadQgroups removeGroup
    rw [if_neg hdir, if_neg nofun, words_listDeadQgroups hids hshow]
  rw [hrun]
  refine ⟨hclean.groups, ?_⟩
  rw [hclean.relations]
  apply Finset.filter_congr
  intro r hr
  -- the parent is of a higher level
  have hparent : r.2 ∉ (B.groups s).filter (Dead ids) := by
    rw [Finset.mem_filter]
    exact fun h => hchild r hr h.2.1
  exact (and_iff_left hparent).symm

/-! ## a hierarchy of two levels -/

section Examples

structure Quota where
  groups : Finset Qgroup
  relations : Finset (Qgroup × Qgroup)

/-- the commands on a table of groups and relations -/
def quota : Btrfs Quota where
  groups := Quota.groups
  relations := Quota.relations
  remove g p s :=
    { s with relations := s.relations.filter fun r => ¬ (r.1.text = g ∧ r.2.text = p) }
  destroy g s :=
    if ∃ r ∈ s.relations, r.1.text = g ∨ r.2.text = g then s
    else { s with groups := s.groups.filter fun q => q.text ≠ g }
  groups_remove _ _ _ := rfl
  relations_remove g p s := by
    ext r
    have htext : ∀ q q' : Qgroup, q.text = q'.text ↔ q = q' :=
      fun q q' => ⟨text_inj, fun e => by rw [e]⟩
    simp only [Finset.mem_filter, Finset.mem_erase, htext, Prod.ext_iff, ne_eq]
    tauto
  groups_destroy g s := by
    have htext : ∀ q : Qgroup, q.text = g.text ↔ q = g := fun q => ⟨text_inj, fun e => by rw [e]⟩
    simp only [htext]
    split
    · rfl
    · ext q
      simp only [Finset.mem_filter, Finset.mem_erase, ne_eq, htext]
      tauto
  relations_destroy g s := by
    split <;> rfl

def oneDead : Quota where
  groups := {⟨0, 5⟩, ⟨0, 257⟩, ⟨0, 258⟩, ⟨1, 0⟩}
  relations := {(⟨0, 257⟩, ⟨1, 0⟩), (⟨0, 258⟩, ⟨1, 0⟩)}

def oneSubvol : List (List Char) := ["ID 257 gen 7 top level 5 path a\n".toList]

def rows : List (List Char) :=
  ["qgroupid rfer excl parent\n".toList, "0/5 0 0 ---\n".toList, "0/258 0 0 1/0\n".toList,
    "1/0 0 0 ---\n".toList, "0/257 0 0 1/0\n".toList]

theorem header_rows : Header "qgroupid rfer excl parent\n".toList where
  start d rest h := by cases h
  word q h := by
    have hword : (words isSpace "qgroupid rfer excl parent\n".toList).getD 0 [] =
        "qgroupid".toList := by decide
    rw [hword] at h
    have hq : 'q' ∈ q.text := by
      rw [← h]
      decide
    exact notMem_text (by decide) (by decide) hq

theorem noParents {q : Qgroup} (h : ∀ r ∈ oneDead.relations, r.1 ≠ q) :
    ParentsText oneDead.relations q "---".toList :=
  .inl ⟨rfl, fun p hp => h (q, p) hp rfl⟩

theorem oneParent {q : Qgroup} (h : ∀ r ∈ oneDead.relations, r.1 = q → r.2 = ⟨1, 0⟩)
    (hmem : (q, ⟨1, 0⟩) ∈ oneDead.relations) : ParentsText oneDead.relations q "1/0".toList := by
  refine .inr ⟨[⟨1, 0⟩], by decide, by decide, fun p => ?_⟩
  rw [List.mem_singleton]
  exact ⟨fun e => e ▸ hmem, fun hp => h (q, p) hp rfl⟩

theorem parentLine_rows : List.Forall₂ (ParentLine oneDead.relations)
    [⟨0, 5⟩, ⟨0, 258⟩, ⟨1, 0⟩, ⟨0, 257⟩] rows.tail := by
  refine .cons ?_ (.cons ?_ (.cons ?_ (.cons ?_ .nil)))
  · exact ⟨' ', "0 0 ---\n".toList, ['0'], ['0'], _, [], rfl, by decide, by decide,
      noParents (by decide)⟩
  · exact ⟨' ', "0 0 1/0\n".toList, ['0'], ['0'], _, [], rfl, by decide, by decide,
      oneParent (by decide) (by decide)⟩
  · exact ⟨' ', "0 0 ---\n".toList, ['0'], ['0'], _, [], rfl, by decide, by decide,
      noParents (by decide)⟩
  · exact ⟨' ', "0 0 1/0\n".toList, ['0'], ['0'], _, [], rfl, by decide, by decide,
      oneParent (by decide) (by decide)⟩

theorem shows_rows : ShowsParents oneDead.groups oneDead.relations rows := by
  obtain ⟨h5, h258, h10, h257, -⟩ : _ ∧ _ ∧ _ ∧ _ ∧ _ := by
    simpa only [rows, List.tail_cons, List.forall₂_cons] using parentLine_rows
  refine ⟨?_, ?_⟩
  · intro l hl
    simp only [rows, List.mem_cons, List.not_mem_nil, or_false] at hl
    rcases hl with rfl | rfl | rfl | rfl | rfl
    · exact .inr header_rows
    · exact .inl ⟨_, by decide, h5⟩
    · exact .inl ⟨_, by decide, h258⟩
    · exact .inl ⟨_, by decide, h10⟩
    · exact .inl ⟨_, by decide, h257⟩
  · intro q hq
    simp only [oneDead, Finset.mem_insert, Finset.mem_singleton] at hq
    rcases hq with rfl | rfl | rfl | rfl
    · exact ⟨_, by simp [rows], h5⟩
    · exact ⟨_, by simp [rows], h257⟩
    · exact ⟨_, by simp [rows], h258⟩
    · exact ⟨_, by simp [rows], h10⟩

theorem ParentLine.groupLine (h : ParentLine relations q l) : GroupLine q l := by
  obtain ⟨c, rest, _, _, _, _, hc, hl, -, -⟩ := h
  exact ⟨c, rest, hc, hl⟩

theorem clean_dead_qgroups_one :
    (quota.groups (cleanDeadQgroups quota ['.'] true oneSubvol rows rows oneDead)) =
      {⟨0, 5⟩, ⟨0, 257⟩, ⟨1, 0⟩} := by
  have hids : ShowsSubvols {257} oneSubvol := by
    have hline : SubvolLine 257 "ID 257 gen 7 top level 5 path a\n".toList :=
      ⟨"gen 7 top level 5 path a\n".toList, by decide⟩
    refine ⟨fun l hl => ⟨257, Finset.mem_singleton_self _, ?_⟩, fun id hid => ?_⟩
    · rw [List.mem_singleton.mp hl]
      exact hline
    · rw [Finset.mem_singleton.mp hid]
      exact ⟨_, List.mem_singleton_self _, hline⟩
  have hshow : ShowsGroups oneDead.groups rows := by
    refine ⟨fun l hl => ?_, fun q hq => ?_⟩
    · rcases shows_rows.line l hl with ⟨q, hq, hrow⟩ | hheader
      · exact .inl ⟨q, hq, hrow.groupLine⟩
      · exact .inr hheader
    · obtain ⟨l, hl, hrow⟩ := shows_rows.all q hq
      exact ⟨l, hl, hrow.groupLine⟩
  have hclean := clean_dead_qgroups (B := quota) (s := oneDead) (List.cons_ne_nil '.' []) hids hshow
    shows_rows (by decide)
  rw [hclean.1]
  decide

end Examples

end Qgroups
