import Mathlib.Data.Finset.Sort
import Mathlib.Data.Set.Card
import TestUnion.Decimal
import TestUnion.PosixCwd
import TestUnion.Words

/-!
# path-stats: how long the paths are

* `Hash`, `bump`, `hist`   a hash of counts: the key of each step counts one more;
* `readLine`, `rows`, `pathStats`   the loop over what `find` prints, and the table;
* `entered`         the process after `chdir`, which gets the output of `readlink` with its newline;
* `relText`, `Finds`   what `find .` prints;
* `table_counts`    each row has a length and the number of paths of this length below the directory
                    that the program was started in, whatever directory it was given.
-/

namespace PathStats

open FileTree PosixPath PosixCwd
open PosixCalls (Disk resolveFrom resolveFrom_cons)

/-! ## counts -/

abbrev Hash (α : Type*) := Finmap fun _ : α => ℕ

section
variable {α : Type*} [DecidableEq α]

def bump (k : α) (h : Hash α) : Hash α :=
  match h.lookup k with
  | some c => h.insert k (c + 1)
  | none => h.insert k 1

def hist (ks : List α) : Hash α := ks.foldl (fun h k => bump k h) ∅

theorem lookup_bump (k k' : α) (h : Hash α) :
    (bump k h).lookup k' = if k' = k then some ((h.lookup k).getD 0 + 1) else h.lookup k' := by
  have hget (c : ℕ) : (h.insert k c).lookup k' = if k' = k then some c else h.lookup k' := by
    by_cases hk : k' = k
    · rw [if_pos hk, hk]
      exact Finmap.lookup_insert h
    · rw [if_neg hk]
      exact Finmap.lookup_insert_of_ne h hk
  unfold bump
  cases hc : h.lookup k with
  | none => exact hget 1
  | some c => exact hget (c + 1)

theorem lookup_hist (ks : List α) (k : α) :
    (hist ks).lookup k = if ks.count k = 0 then none else some (ks.count k) := by
  induction ks using List.reverseRecOn with
  | nil => rfl
  | append_singleton ks a ih =>
    have hstep : hist (ks ++ [a]) = bump a (hist ks) := by
      unfold hist
      rw [List.foldl_append, List.foldl_cons, List.foldl_nil]
    rw [hstep, lookup_bump, List.count_append, List.count_singleton]
    by_cases hk : k = a
    · subst hk
      rw [ih]
      by_cases hzero : ks.count k = 0 <;> simp [hzero]
    · rw [if_neg hk, ih]
      simp [Ne.symm hk]

end

/-- `sort { $b <=> $a } keys %hist` -/
def rows (h : Hash ℤ) : List (ℤ × ℕ) :=
  (h.keys.sort (· ≥ ·)).map fun l => (l, (h.lookup l).getD 0)

theorem rows_pairwise (h : Hash ℤ) : (rows h).Pairwise fun a b => b.1 < a.1 := by
  unfold rows
  rw [List.pairwise_map]
  exact (Finset.sortedGT_sort h.keys).pairwise

theorem mem_rows {ks : List ℤ} {l : ℤ} {c : ℕ} :
    (l, c) ∈ rows (hist ks) ↔ 0 < c ∧ c = ks.count l := by
  unfold rows
  rw [List.mem_map]
  constructor
  · intro hex
    obtain ⟨l', hl', heq⟩ := hex
    cases heq
    rw [Finset.mem_sort, Finmap.mem_keys, ← Finmap.lookup_isSome, lookup_hist] at hl'
    rw [lookup_hist]
    split at hl'
    · cases hl'
    · next hzero =>
      rw [if_neg hzero]
      exact ⟨Nat.pos_of_ne_zero hzero, rfl⟩
  · intro hc
    obtain ⟨hpos, rfl⟩ := hc
    have hlookup : (hist ks).lookup l = some (ks.count l) := by
      rw [lookup_hist, if_neg (Nat.ne_of_gt hpos)]
    refine ⟨l, ?_, by rw [hlookup]; rfl⟩
    rw [Finset.mem_sort, Finmap.mem_keys, ← Finmap.lookup_isSome, hlookup]
    rfl

/-! ## the program -/

/-- the lines that are not counted -/
def skipped (f : Str) : Bool :=
  [[], ".".toList, "..".toList, "./".toList, "../".toList].contains f

/-- `length($f) - length("./")` -/
def len (f : Str) : ℤ := f.length - 2

structure St where
  hist : Hash ℤ
  out : List Str

/-- A line comes with whether a second has passed since the last `At:`.  A value that is not defined
is printed as the empty text. -/
def readLine (s : St) (line : Str × Bool) : St :=
  let f := chomp '\n' line.1
  if skipped f = true then s
  else
    let l := len f
    let progress := if line.2 = true then ["At: ".toList ++ f ++ ['\n']] else []
    let old := (s.hist.lookup l).elim [] (Nat.toDigits 10)
    ⟨bump l s.hist, s.out ++ progress ++
      ["LEN ".toList ++ decimal l ++ ' ' :: old ++ ' ' :: f ++ ['\n']]⟩

/-- `% 8d` -/
def field (x : ℤ) : Str :=
  let text := if x < 0 then decimal x else ' ' :: decimal x
  List.replicate (8 - text.length) ' ' ++ text

def rowText (r : ℤ × ℕ) : Str := field r.1 ++ ' ' :: field r.2 ++ ['\n']

def header : Str := "# length    count\n".toList

/-- `path` is the output of `readlink -f`. -/
def pathStats (path : Str) (lines : List (Str × Bool)) : List Str :=
  let s := lines.foldl readLine ⟨∅, ["Path: ".toList ++ path ++ ['\n']]⟩
  s.out ++ header :: (rows s.hist).map rowText

/-- `chdir($path)`, with what `readlink -f` printed -/
def entered (w : Process) (path : Str) : Process := (attempt (w.chdir path) w).2

/-- a path below `.`, as `find` prints it -/
def relText (p : Path) : Str := '.' :: p.reverse.flatMap fun n => '/' :: n.1

/-- the same without `./` -/
def name (p : Path) : Str := (relText p).drop 2

/-- `find` comes to every node below the working directory once, in some order. -/
def Finds (w : Process) (lines : List Str) : Prop :=
  ∃ ps : List Path, ps.Nodup ∧ (∀ p, p ∈ ps ↔ w.disk.get (p ++ w.cwd) ≠ none) ∧
    lines = linesOf '\n' (ps.flatMap fun p => relText p ++ ['\n'])

/-! ## the table -/

def counted (lines : List Str) : List Str := (lines.map (chomp '\n')).filter fun f => !skipped f

theorem readLine_hist (lines : List (Str × Bool)) (s : St) : (lines.foldl readLine s).hist =
    ((counted (lines.map Prod.fst)).map len).foldl (fun h l => bump l h) s.hist := by
  induction lines generalizing s with
  | nil => rfl
  | cons line lines ih =>
    rw [List.foldl_cons, ih]
    unfold counted readLine
    rw [List.map_cons, List.map_cons, List.filter_cons]
    cases hskip : skipped (chomp '\n' line.1) <;> simp [hskip]

def blank (c : Char) : Bool := c = ' ' || c = '\n'

theorem blank_decimal {x : ℤ} {c : Char} (hc : c ∈ decimal x) : blank c = false := by
  have hdigit {c : Char} (h : c.isDigit = true) : blank c = false := by
    unfold blank
    rw [Bool.or_eq_false_iff, decide_eq_false_iff_not, decide_eq_false_iff_not]
    constructor
    · rintro rfl
      cases h
    · rintro rfl
      cases h
  unfold decimal at hc
  split at hc
  · rcases List.mem_cons.mp hc with rfl | hc
    · rfl
    · exact hdigit (isDigit_of_mem_toDigits hc)
  · exact hdigit (isDigit_of_mem_toDigits hc)

theorem decimal_ne_nil (x : ℤ) : decimal x ≠ [] := by
  unfold decimal
  split
  · exact List.cons_ne_nil _ _
  · exact Nat.toDigits_ne_nil

theorem field_eq (x : ℤ) : ∃ k, field x = List.replicate k ' ' ++ decimal x := by
  unfold field
  by_cases hx : x < 0
  · rw [if_pos hx]
    exact ⟨_, rfl⟩
  · rw [if_neg hx]
    refine ⟨8 - (' ' :: decimal x).length + 1, ?_⟩
    rw [List.replicate_succ', List.append_assoc]
    rfl

theorem words_field (x : ℤ) {c : Char} (hc : blank c = true) (s : Str) :
    words blank (field x ++ c :: s) = decimal x :: words blank s := by
  obtain ⟨k, hk⟩ := field_eq x
  rw [hk, List.append_assoc]
  clear hk
  induction k with
  | zero => exact words_append_cons (decimal_ne_nil x) (fun _ => blank_decimal) hc
  | succ k ih =>
    rw [List.replicate_succ, List.cons_append, words_cons_sep rfl]
    exact ih

/-- The columns of a row are read back. -/
theorem words_rowText (l : ℤ) (c : ℕ) :
    words blank (rowText (l, c)) = [decimal l, decimal c] := by
  unfold rowText
  rw [List.append_assoc, List.cons_append, words_field l rfl, words_field c rfl]
  rfl

/-! ## what `find` prints -/

section
variable {w : Process} {t : Disk} {p q cwd : Path} {r : Str} {cs : List Comp}
  {timed : List (Str × Bool)} {n : Name}

theorem relText_cons (h : p ≠ []) : relText p = '.' :: '/' :: name p ∧ name p ≠ [] := by
  obtain ⟨n, ns, hn⟩ := List.exists_cons_of_ne_nil (List.reverse_ne_nil_iff.mpr h)
  have htext : relText p = '.' :: '/' :: (n.1 ++ ns.flatMap fun n => '/' :: n.1) := by
    unfold relText
    rw [hn]
    rfl
  have hname : name p = n.1 ++ ns.flatMap fun n => '/' :: n.1 := by
    unfold name
    rw [htext]
    rfl
  exact ⟨by rw [htext, hname], by rw [hname]; exact List.append_ne_nil_of_left_ne_nil n.2.1 _⟩

/-- All paths but the first are counted. -/
theorem skipped_relText (p : Path) : skipped (relText p) = decide (p = []) := by
  by_cases hp : p = []
  · subst hp
    rfl
  · obtain ⟨htext, hne⟩ := relText_cons hp
    obtain ⟨c, s, hc⟩ := List.exists_cons_of_ne_nil hne
    rw [htext, hc, decide_eq_false hp]
    unfold skipped
    simp

theorem len_relText (h : p ≠ []) : len (relText p) = ((name p).length : ℤ) := by
  rw [(relText_cons h).1]
  unfold len
  rw [List.length_cons, List.length_cons]
  omega

/-- The names of the tree have no newlines. -/
def OneLine (t : Disk) : Prop := ∀ n p, t.get (n :: p) ≠ none → '\n' ∉ n.1

theorem OneLine.names (ht : OneLine t) (h : t.get (p ++ cwd) ≠ none) : ∀ n ∈ p, '\n' ∉ n.1 := by
  intro n hn
  obtain ⟨a, b, rfl⟩ := List.append_of_mem hn
  apply ht n (b ++ cwd)
  apply Tree.get_ne_none_of_suffix h
  rw [List.append_assoc]
  exact List.suffix_append a _

theorem OneLine.relText (ht : OneLine t) (h : t.get (p ++ cwd) ≠ none) : '\n' ∉ relText p := by
  have hnames := ht.names h
  unfold PathStats.relText
  rw [List.mem_cons, List.mem_flatMap]
  rintro (hdot | ⟨n, hn, hmem⟩)
  · exact absurd hdot (by decide)
  · rcases List.mem_cons.mp hmem with hslash | hmem
    · exact absurd hslash (by decide)
    · exact hnames n (List.mem_reverse.mp hn) hmem

/-! ## `chdir` with a newline -/

theorem exists_of_resolve (h : resolveFrom t p cs = .ok q) (hn : Comp.down n ∈ cs) :
    ∃ p', t.get (n :: p') ≠ none := by
  induction cs generalizing p with
  | nil => cases hn
  | cons c cs ih =>
    rw [resolveFrom_cons] at h
    split at h
    · cases h
    · cases c with
      | stay => exact ih h ((List.mem_cons.mp hn).resolve_left nofun)
      | up => exact ih h ((List.mem_cons.mp hn).resolve_left nofun)
      | down m =>
        dsimp only at h
        split at h
        · cases h
        · next hne =>
          rcases List.mem_cons.mp hn with heq | hn
          · cases heq
            exact ⟨p, hne⟩
          · exact ih h hn

/-- The last name has the newline. -/
theorem exists_newline (r : Str) : ∃ n : Name, Comp.down n ∈ parts (r ++ ['\n']) ∧ '\n' ∈ n.1 := by
  have hname {b : Str} (hb : '/' ∉ b) : IsName (b ++ ['\n']) := by
    have hlast {s : Str} (heq : b ++ ['\n'] = s) : s.getLast? = some '\n' := by
      rw [← heq, List.getLast?_concat]
    refine ⟨?_, ?_, ?_, ?_⟩
    · exact fun heq => absurd (hlast heq) (by decide)
    · exact fun heq => absurd (hlast heq) (by decide)
    · exact fun heq => absurd (hlast heq) (by decide)
    · rw [List.mem_append, List.mem_singleton]
      exact not_or.mpr ⟨hb, by decide⟩
  obtain ⟨b, hb, hmem⟩ : ∃ b, '/' ∉ b ∧ b ++ ['\n'] ∈ (r ++ ['\n']).splitOn '/' := by
    by_cases hslash : '/' ∈ r
    · obtain ⟨as, bs, hr, has⟩ := List.eq_append_cons_of_mem (List.mem_reverse.mpr hslash)
      have hr' : r = bs.reverse ++ '/' :: as.reverse := by
        rw [← List.reverse_reverse r, hr]
        simp
      refine ⟨as.reverse, List.mem_reverse.not.mpr has, ?_⟩
      rw [hr', List.append_assoc, List.cons_append, List.splitOn_append_cons_self,
        List.splitOn_eq_singleton (hname (List.mem_reverse.not.mpr has)).2.2.2]
      exact List.mem_append_right _ List.mem_cons_self
    · refine ⟨r, hslash, ?_⟩
      rw [List.splitOn_eq_singleton (hname hslash).2.2.2]
      exact List.mem_cons_self
  refine ⟨⟨b ++ ['\n'], hname hb⟩, ?_, List.mem_append_right _ List.mem_cons_self⟩
  unfold parts
  refine List.mem_map.mpr ⟨b ++ ['\n'], List.mem_filter.mpr ⟨hmem, ?_⟩, dif_pos (hname hb)⟩
  exact decide_eq_true (hname hb).1

/-- The newline of `readlink` is not taken off, so the program stays where it is. -/
theorem entered_newline (ht : OneLine w.disk) (r : Str) : entered w (r ++ ['\n']) = w := by
  obtain ⟨n, hn, hnewline⟩ := exists_newline r
  unfold entered Process.chdir
  split
  · rfl
  · cases hres : resolveFrom w.disk (start w.cwd (r ++ ['\n'])) (parts (r ++ ['\n'])) with
    | error e => rfl
    | ok q =>
      obtain ⟨p', hp'⟩ := exists_of_resolve hres hn
      exact absurd hnewline (ht n p' hp')

/-! ## the table -/

theorem counted_finds {ps : List Path} (h : ∀ p ∈ ps, '\n' ∉ relText p) :
    (counted (linesOf '\n' (ps.flatMap fun p => relText p ++ ['\n']))).map len =
      (ps.filter fun p => p ≠ []).map fun p => ((name p).length : ℤ) := by
  rw [linesOf_flatMap h]
  unfold counted
  rw [List.map_map]
  clear h
  induction ps with
  | nil => rfl
  | cons p ps ih =>
    rw [List.map_cons, Function.comp_apply, chomp_concat, List.filter_cons, skipped_relText,
      List.filter_cons]
    by_cases hp : p = []
    · simpa [hp] using ih
    · simpa [hp, len_relText hp] using ih

/-- **The table counts the paths of the directory that the program was started in**: the lengths go
down, each row is read back, and each length that a path has is there with the number of these
paths. -/
theorem table_counts (ht : OneLine w.disk)
    (hfind : Finds (entered w (r ++ ['\n'])) (timed.map Prod.fst)) :
    ∃ (before : List Str) (table : List (ℤ × ℕ)),
      pathStats (r ++ ['\n']) timed = before ++ header :: table.map rowText ∧
      table.Pairwise (fun a b => b.1 < a.1) ∧
      (∀ row ∈ table, words blank (rowText row) = [decimal row.1, decimal row.2]) ∧
      ∀ l c, (l, c) ∈ table ↔ 0 < c ∧
        c = {p : Path | p ≠ [] ∧ w.disk.get (p ++ w.cwd) ≠ none ∧
          ((name p).length : ℤ) = l}.ncard := by
  rw [entered_newline ht] at hfind
  obtain ⟨ps, hnodup, hps, hlist⟩ := hfind
  have hlines : ∀ p ∈ ps, '\n' ∉ relText p := fun p hp => ht.relText ((hps p).mp hp)
  refine ⟨_, _, rfl, rows_pairwise _, fun row _ => words_rowText row.1 row.2, ?_⟩
  intro l c
  rw [readLine_hist, hlist, counted_finds hlines]
  have hcount : ((ps.filter fun p => p ≠ []).map fun p => ((name p).length : ℤ)).count l =
      {p : Path | p ≠ [] ∧ w.disk.get (p ++ w.cwd) ≠ none ∧ ((name p).length : ℤ) = l}.ncard := by
    let qs := (ps.filter fun p => p ≠ []).filter fun p => ((name p).length : ℤ) = l
    have hset : {p : Path | p ≠ [] ∧ w.disk.get (p ++ w.cwd) ≠ none ∧ ((name p).length : ℤ) = l} =
        ↑qs.toFinset := by
      ext p
      simp only [qs, Set.mem_ofPred_eq, List.coe_toFinset, List.mem_filter, decide_eq_true_eq, hps]
      exact and_left_comm.trans and_assoc.symm
    have hqs : qs.Nodup := (hnodup.filter _).filter _
    rw [hset, Set.ncard_coe_finset, List.toFinset_card_of_nodup hqs, List.count, List.countP_map,
      List.countP_eq_length_filter]
    exact congrArg List.length (List.filter_congr fun p _ => rfl)
  rw [← hcount]
  exact mem_rows

end

/-! a process in the root directory, with a directory `a` that the program is given -/

section Examples

theorem isName_a : IsName ['a'] := by decide

theorem isName_b : IsName ['b'] := by decide

def dirA : Name := ⟨['a'], isName_a⟩

def fileB : Name := ⟨['b'], isName_b⟩

theorem bare_root : (Tree.bare : Disk).get [] = some .dir := rfl

theorem bare_a : (Tree.bare : Disk).get [dirA] ≠ some .dir := by decide +kernel

def diskA : Disk := (Tree.bare : Disk).put dirA [] .dir bare_root bare_a

theorem diskA_a : diskA.get [dirA] = some .dir := by decide +kernel

theorem diskA_b : diskA.get [fileB, dirA] ≠ some .dir := by decide +kernel

def sampleProcess : Process := ⟨diskA.put fileB [dirA] (.file 1) diskA_a diskA_b, []⟩

theorem sample_nodes (q : Path) : sampleProcess.disk.get q ≠ none ↔
    q = [] ∨ q = [dirA] ∨ q = [fileB, dirA] := by
  have hb : sampleProcess.disk.get q = if q = [fileB, dirA] then some (.file 1) else diskA.get q :=
    Tree.get_put diskA_a diskA_b q
  have ha : diskA.get q = if q = [dirA] then some .dir else (Tree.bare : Disk).get q :=
    Tree.get_put bare_root bare_a q
  have hbare : (Tree.bare : Disk).get q ≠ none ↔ q = [] := by
    rw [← Option.isSome_iff_ne_none]
    exact Finmap.lookup_isSome.trans (Finmap.mem_singleton _ _ _)
  rw [hb, ha]
  by_cases hqb : q = [fileB, dirA]
  · simp [hqb]
  · by_cases hqa : q = [dirA]
    · simp [hqa]
    · rw [if_neg hqb, if_neg hqa, hbare]
      simp [hqa, hqb]

/-- The last line comes after a second. -/
def sampleLines : List (Str × Bool) :=
  [(['.', '\n'], false), ("./a\n".toList, false), ("./a/b\n".toList, true)]

theorem table_counts_sample : ∃ (before : List Str) (table : List (ℤ × ℕ)),
    pathStats ("/a".toList ++ ['\n']) sampleLines = before ++ header :: table.map rowText ∧
      (3, 1) ∈ table := by
  have ht : OneLine sampleProcess.disk := by
    intro n p hn
    rcases (sample_nodes _).mp hn with hnil | ha | hb
    · cases hnil
    · rw [(List.cons.inj ha).1]
      decide
    · rw [(List.cons.inj hb).1]
      decide
  have hfind : Finds (entered sampleProcess ("/a".toList ++ ['\n']))
      (sampleLines.map Prod.fst) := by
    rw [entered_newline ht]
    refine ⟨[[], [dirA], [fileB, dirA]], by decide, ?_, by decide⟩
    intro p
    show _ ↔ sampleProcess.disk.get (p ++ []) ≠ none
    rw [List.append_nil, sample_nodes]
    simp
  obtain ⟨before, table, htext, -, -, htable⟩ := table_counts ht hfind
  refine ⟨before, table, htext, (htable 3 1).mpr ⟨Nat.one_pos, ?_⟩⟩
  have hset : {p : Path | p ≠ [] ∧ sampleProcess.disk.get (p ++ sampleProcess.cwd) ≠ none ∧
      ((name p).length : ℤ) = 3} = {[fileB, dirA]} := by
    ext p
    show p ≠ [] ∧ sampleProcess.disk.get (p ++ []) ≠ none ∧ _ ↔ p = _
    rw [List.append_nil, sample_nodes]
    constructor
    · intro h
      obtain ⟨hne, hnil | ha | hb, hlen⟩ := h
      · exact absurd hnil hne
      · rw [ha] at hlen
        exact absurd hlen (by decide)
      · exact hb
    · rintro rfl
      exact ⟨List.cons_ne_nil _ _, .inr (.inr rfl), by decide⟩
  rw [hset, Set.ncard_singleton]

end Examples

end PathStats
