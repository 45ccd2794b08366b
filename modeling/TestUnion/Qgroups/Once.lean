import TestUnion.Qgroups.Clean
import Mathlib.Data.List.ReduceOption

/-!
# list-dead-qgroups: how often a dead group is printed

* `RowLine`         the lines of the table, rows of any level and title lines in any order;
* `PrintsOnce`      the lines of the dead groups, in the order of the table, each once;
* `rowWord`         what a row sets `$1` to;
* `prints_iff`      this is what is printed exactly when no dead group is directly above a line that is
                    not a row of level 0: there `$1` is still the dead group.
-/

namespace Qgroups

open Carry

/-- A title line has no group; it is only not taken for one of level 0. -/
def RowLine : Option Qgroup → List Char → Prop
  | some q, l => GroupLine q l
  | none, l => ∀ d rest, l = '0' :: '/' :: d :: rest → d.isDigit = false

def deadOf (ids : Finset ℕ) (rows : List (Option Qgroup)) : List Qgroup :=
  rows.reduceOption.filter fun q => Dead ids q

structure PrintsOnce (ids : Finset ℕ) (rows : List (Option Qgroup))
    (subvolList qgroupShow : List (List Char)) : Prop where
  lines : listDeadQgroups subvolList qgroupShow =
    (deadOf ids rows).flatMap fun q => q.text ++ ['\n']
  once : (deadOf ids rows).Nodup

def DeadRow (ids : Finset ℕ) (row : Option Qgroup) : Prop := ∃ q, row = some q ∧ Dead ids q

def ZeroRow (row : Option Qgroup) : Prop := ∃ q, row = some q ∧ q.level = 0

/-- what a row sets `$1` to -/
def rowWord : Option Qgroup → Option Word
  | some q => if q.level = 0 then some (Nat.toDigits 10 q.id) else none
  | none => none

section
variable {ids : Finset ℕ} {rows : List (Option Qgroup)} {row : Option Qgroup}
  {subvolList qgroupShow lines : List (List Char)} {l : List Char} {q : Qgroup} {keys : List Word}

/-! ## the two loops over the rows -/

theorem map_matchRow (h : List.Forall₂ RowLine rows lines) :
    lines.map matchRow = rows.map rowWord := by
  induction h with
  | nil => rfl
  | @cons row l rows lines hl _ ih =>
    rw [List.map_cons, List.map_cons, ih]
    congr 1
    cases row with
    | none => exact matchRow_title hl
    | some q =>
      show matchRow l = if q.level = 0 then some (Nat.toDigits 10 q.id) else none
      by_cases hq : q.level = 0
      · rw [if_pos hq, matchRow_zero hq hl]
      · rw [if_neg hq, matchRow_high hq hl]

theorem deadRow_rowWord (hkeys : ∀ id, Nat.toDigits 10 id ∈ keys ↔ id ∈ ids) :
    deadRow keys (rowWord (some q)) = if Dead ids q then some q.text else none := by
  show deadRow keys (if q.level = 0 then some (Nat.toDigits 10 q.id) else none) = _
  by_cases hq : q.level = 0
  · rw [if_pos hq]
    by_cases hdead : Dead ids q
    · rw [if_pos hdead, deadRow_some, hkeys]
      exact ⟨hdead.2.1, hdead.2.2, text_zero hq⟩
    · rw [if_neg hdead]
      by_contra hne
      obtain ⟨w, hw⟩ := Option.ne_none_iff_exists'.mp hne
      rw [deadRow_some, hkeys] at hw
      exact hdead ⟨hq, hw.1, hw.2.1⟩
  · rw [if_neg hq, if_neg fun h => hq h.1]
    rfl

theorem filterMap_rowWord (hkeys : ∀ id, Nat.toDigits 10 id ∈ keys ↔ id ∈ ids) :
    (rows.map rowWord).filterMap (deadRow keys) = (deadOf ids rows).map Qgroup.text := by
  induction rows with
  | nil => rfl
  | cons row rows ih =>
    rw [List.map_cons]
    cases row with
    | none =>
      rw [List.filterMap_cons_none rfl, ih]
      rfl
    | some q =>
      have hrow := deadRow_rowWord (q := q) hkeys
      have hof : deadOf ids (some q :: rows) =
          if Dead ids q then q :: deadOf ids rows else deadOf ids rows := by
        unfold deadOf
        rw [List.reduceOption_cons_of_some, List.filter_cons]
        simp
      by_cases hdead : Dead ids q
      · rw [if_pos hdead] at hrow
        rw [List.filterMap_cons_some hrow, ih, hof, if_pos hdead, List.map_cons]
      · rw [if_neg hdead] at hrow
        rw [List.filterMap_cons_none hrow, ih, hof, if_neg hdead]

theorem rowWord_ne_none : rowWord row ≠ none ↔ ZeroRow row := by
  cases row with
  | none => simp [rowWord, ZeroRow]
  | some q => simp [rowWord, ZeroRow]

theorem deadRow_ne_none (hkeys : ∀ id, Nat.toDigits 10 id ∈ keys ↔ id ∈ ids) :
    deadRow keys (rowWord row) ≠ none ↔ DeadRow ids row := by
  cases row with
  | none => simp [rowWord, DeadRow, deadRow, matchNumber]
  | some q =>
    rw [deadRow_rowWord hkeys]
    simp [DeadRow]

/-- what is printed, as a list -/
theorem deadRows_iff (hkeys : ∀ id, Nat.toDigits 10 id ∈ readIds none subvolList ↔ id ∈ ids)
    (hrows : List.Forall₂ RowLine rows qgroupShow) :
    deadRows subvolList qgroupShow = (deadOf ids rows).map Qgroup.text ↔
      rows.IsChain fun x y => DeadRow ids x → ZeroRow y := by
  unfold deadRows
  rw [readRows_eq_carry, map_matchRow hrows, ← filterMap_rowWord hkeys,
    filterMap_carry_none_iff rfl, List.isChain_map]
  simp only [deadRow_ne_none hkeys, rowWord_ne_none]

/-- The lines that are printed are words without newlines. -/
theorem listDeadQgroups_iff (hkeys : ∀ id, Nat.toDigits 10 id ∈ readIds none subvolList ↔ id ∈ ids)
    (hrows : List.Forall₂ RowLine rows qgroupShow) :
    (listDeadQgroups subvolList qgroupShow = (deadOf ids rows).flatMap fun q => q.text ++ ['\n']) ↔
      deadRows subvolList qgroupShow = (deadOf ids rows).map Qgroup.text := by
  have hspec : ((deadOf ids rows).flatMap fun q => q.text ++ ['\n']) =
      ((deadOf ids rows).map Qgroup.text).flatMap fun w => w ++ ['\n'] := by
    rw [List.flatMap_map]
  have hprinted : ∀ w ∈ deadRows subvolList qgroupShow, w ≠ [] ∧ ∀ c ∈ w, isIfs c = false := by
    intro w hw
    unfold deadRows at hw
    rw [readRows_eq_carry, map_matchRow hrows] at hw
    obtain ⟨v, hv, hvw⟩ := List.mem_filterMap.mp hw
    cases v with
    | none => cases hvw
    | some v =>
      obtain ⟨row, -, hrow⟩ := List.mem_map.mp (some_mem_carry.mp hv)
      cases row with
      | none => cases hrow
      | some q =>
        rw [← hrow, deadRow_rowWord hkeys] at hvw
        split at hvw
        · cases hvw
          exact isIfs_text q
        · cases hvw
  have hwanted : ∀ w ∈ (deadOf ids rows).map Qgroup.text, w ≠ [] ∧ ∀ c ∈ w, isIfs c = false := by
    intro w hw
    obtain ⟨q, -, rfl⟩ := List.mem_map.mp hw
    exact isIfs_text q
  rw [hspec]
  unfold listDeadQgroups
  refine ⟨fun h => ?_, fun h => by rw [h]⟩
  have hwords := congrArg (words isIfs) h
  rwa [words_lines hprinted rfl, words_lines hwanted rfl] at hwords

end

/-- Each dead group is printed once exactly when the line below it, if there is one, is a row of
level 0. -/
theorem prints_iff {ids : Finset ℕ} {rows : List (Option Qgroup)}
    {subvolList qgroupShow : List (List Char)} (hids : Subvols ids subvolList)
    (hrows : List.Forall₂ RowLine rows qgroupShow) (hdistinct : rows.reduceOption.Nodup) :
    PrintsOnce ids rows subvolList qgroupShow ↔
      rows.IsChain fun x y => DeadRow ids x → ZeroRow y := by
  have hkeys (id : ℕ) : Nat.toDigits 10 id ∈ readIds none subvolList ↔ id ∈ ids :=
    mem_readIds hids
  rw [← deadRows_iff hkeys hrows, ← listDeadQgroups_iff hkeys hrows]
  exact ⟨fun h => h.lines, fun h => ⟨h, hdistinct.filter _⟩⟩

/-! ## one dead group -/

def tableRows : List (Option Qgroup) := [none, some ⟨0, 257⟩, some ⟨0, 258⟩, some ⟨1, 100⟩]

def tableLines : List (List Char) :=
  ["qgroupid rfer excl\n".toList, "0/257 0 0\n".toList, "0/258 0 0\n".toList, "1/100 0 0\n".toList]

theorem rowLine_of (q : Qgroup) (rest : List Char) : RowLine (some q) (q.text ++ ' ' :: rest) :=
  ⟨' ', rest, rfl, rfl⟩

theorem tableLines_rows : List.Forall₂ RowLine tableRows tableLines := by
  refine .cons ?_ (.cons ?_ (.cons ?_ (.cons ?_ .nil)))
  · intro d rest h
    cases h
  · exact rowLine_of ⟨0, 257⟩ "0 0\n".toList
  · exact rowLine_of ⟨0, 258⟩ "0 0\n".toList
  · exact rowLine_of ⟨1, 100⟩ "0 0\n".toList

theorem subvols_none : Subvols ∅ [] := ⟨nofun, nofun⟩

theorem subvols_258 : Subvols {258} ["ID 258 gen 7 top level 5 path a\n".toList] := by
  have hline : SubvolLine 258 "ID 258 gen 7 top level 5 path a\n".toList :=
    ⟨"gen 7 top level 5 path a\n".toList, by decide⟩
  refine ⟨fun l hl => .inl ⟨258, Finset.mem_singleton_self _, ?_⟩, fun id hid => ?_⟩
  · rw [List.mem_singleton.mp hl]
    exact hline
  · rw [Finset.mem_singleton.mp hid]
    exact ⟨_, List.mem_singleton_self _, hline⟩

theorem prints_iff_live :
    PrintsOnce {258} tableRows ["ID 258 gen 7 top level 5 path a\n".toList] tableLines := by
  refine (prints_iff subvols_258 tableLines_rows (by decide)).mpr ?_
  simp [tableRows, DeadRow, ZeroRow, Dead]

/-- Without any subvolume the group `0/258` is printed again at the row of `1/100`. -/
theorem not_prints : Subvols ∅ [] ∧ List.Forall₂ RowLine tableRows tableLines ∧
    tableRows.reduceOption.Nodup ∧ ¬ PrintsOnce ∅ tableRows [] tableLines := by
  refine ⟨subvols_none, tableLines_rows, by decide, fun h => ?_⟩
  exact absurd h.lines (by decide)

end Qgroups
