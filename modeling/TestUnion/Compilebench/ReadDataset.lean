import TestUnion.Compilebench.Exec
import TestUnion.Compilebench.NativeSpec
import TestUnion.Words

/-!
# compilebench: the dataset files

* `isSpace`, `nameSize`   the first two words of a line, as `split` of Python gives them;
* `readDataset`     `read_dataset`: the last line about a name counts;
* `readDataset_spec`   which files are read, and what is read;
* `datasetLine`, `read_printed`   a file that lists a dataset is read as that dataset, whatever the
                    order of its lines.
-/

namespace Compilebench

open PosixPath ExceptLoop

/-- the characters at which `split` parts a string -/
def isSpace (c : Char) : Bool :=
  [' ', '\t', '\n', '\r', Char.ofNat 11, Char.ofNat 12].contains c

/-- what is read, before `int` is applied to a size -/
abbrev Raw := Finmap fun _ : Str => Str

inductive ReadError where
  | indexError
  deriving DecidableEq, Repr

/-- `words[0]` and `words[1]` -/
def nameSize (x : Str) : Except ReadError (Str × Str) :=
  match words isSpace x with
  | name :: size :: _ => .ok (name, size)
  | _ => .error .indexError

/-- one round of the loop over the file -/
def readLine (lines : Raw) (x : Str) : Except ReadError Raw := do
  let (name, size) ← nameSize x
  return lines.insert name size

def readDataset (text : Str) : Except ReadError Raw := (linesOf '\n' text).foldlM readLine ∅

theorem nameSize_ok {x : Str} : (∃ e, nameSize x = .ok e) ↔ 2 ≤ (words isSpace x).length := by
  unfold nameSize
  split
  · next h => simp [h]
  · next h =>
    refine ⟨?_, ?_⟩
    · intro hex
      obtain ⟨e, he⟩ := hex
      cases he
    · intro hlen
      cases hw : words isSpace x with
      | nil =>
        rw [hw] at hlen
        cases hlen
      | cons a ws =>
        cases ws with
        | nil =>
          rw [hw] at hlen
          exact absurd hlen (Nat.not_succ_le_self 1)
        | cons b ws => exact absurd hw (h a b ws)

/-- The entry of a name is that of the last line that begins with it. -/
def LastOf (lines : List Str) (name size : Str) : Prop :=
  ∃ pre x post, lines = pre ++ x :: post ∧ nameSize x = .ok (name, size) ∧
    ∀ y ∈ post, ∀ size', nameSize y ≠ .ok (name, size')

theorem lastOf_concat {lines : List Str} {x name size name' size' : Str}
    (hx : nameSize x = .ok (name', size')) :
    LastOf (lines ++ [x]) name size ↔
      (name = name' ∧ size = size') ∨ (name ≠ name' ∧ LastOf lines name size) := by
  refine ⟨?_, ?_⟩
  · intro h
    obtain ⟨pre, y, post, hl, hy, hpost⟩ := h
    rcases List.eq_nil_or_concat post with rfl | ⟨post', z, rfl⟩
    · obtain ⟨rfl, hxy⟩ := List.append_inj' hl rfl
      cases hxy
      rw [hx] at hy
      cases hy
      exact .inl ⟨rfl, rfl⟩
    · have hl' : lines ++ [x] = (pre ++ y :: post') ++ [z] := by rw [hl]; simp
      obtain ⟨rfl, hxz⟩ := List.append_inj' hl' rfl
      cases hxz
      refine .inr ⟨?_, pre, y, post', rfl, hy, ?_⟩
      · rintro rfl
        exact hpost x (by simp) _ hx
      · intro u hu
        exact hpost u (by simp [hu])
  · rintro (⟨rfl, rfl⟩ | ⟨hne, pre, y, post, rfl, hy, hpost⟩)
    · exact ⟨lines, x, [], rfl, hx, fun y hy => absurd hy List.not_mem_nil⟩
    · refine ⟨pre, y, post ++ [x], by simp, hy, ?_⟩
      intro u hu size'' he
      rcases List.mem_append.mp hu with hu | hu
      · exact hpost u hu _ he
      · rw [List.mem_singleton.mp hu, hx] at he
        cases he
        exact hne rfl

theorem readLines_spec {lines : List Str} {d : Raw} (h : lines.foldlM readLine ∅ = .ok d) :
    (∀ x ∈ lines, 2 ≤ (words isSpace x).length) ∧
      ∀ name size, d.lookup name = some size ↔ LastOf lines name size := by
  apply foldlM_inv (I := fun pre (d : Raw) => (∀ x ∈ pre, 2 ≤ (words isSpace x).length) ∧
    ∀ name size, d.lookup name = some size ↔ LastOf pre name size) _ _ h
  · refine ⟨nofun, ?_⟩
    intro name size
    rw [Finmap.lookup_empty]
    refine ⟨nofun, ?_⟩
    intro hex
    obtain ⟨pre, x, post, hl, _⟩ := hex
    exact absurd hl.symm (List.append_ne_nil_of_right_ne_nil _ (List.cons_ne_nil _ _))
  · intro pre x post d d' _ hd hstep
    unfold readLine at hstep
    rw [bind_eq_ok] at hstep
    obtain ⟨⟨name', size'⟩, hx, hins⟩ := hstep
    cases hins
    refine ⟨?_, ?_⟩
    · intro y hy
      rcases List.mem_append.mp hy with hy | hy
      · exact hd.1 y hy
      · rw [List.mem_singleton.mp hy]
        exact nameSize_ok.mp ⟨_, hx⟩
    · intro name size
      rw [lastOf_concat hx, ← hd.2]
      by_cases hne : name = name'
      · subst hne
        rw [Finmap.lookup_insert]
        simp [eq_comm]
      · rw [Finmap.lookup_insert_of_ne _ hne]
        simp [hne]

theorem readLines_total {lines : List Str} (h : ∀ x ∈ lines, 2 ≤ (words isSpace x).length) :
    ∃ d, lines.foldlM readLine ∅ = .ok d := by
  obtain ⟨d, hd, _⟩ := foldlM_total (I := fun _ (_ : Raw) => True) (f := readLine) (l := lines)
    (s := ∅) trivial (by
      intro pre x post d hl _
      obtain ⟨e, he⟩ := nameSize_ok.mpr (h x (by rw [hl]; simp))
      refine ⟨d.insert e.1 e.2, ?_, trivial⟩
      unfold readLine
      rw [he]
      rfl)
  exact ⟨d, hd⟩

/-- A file is read iff every line has two words; a name that several lines give has the size of the
last one. -/
theorem readDataset_spec (text : Str) :
    ((∃ d, readDataset text = .ok d) ↔
      ∀ x ∈ linesOf '\n' text, 2 ≤ (words isSpace x).length) ∧
    ∀ d, readDataset text = .ok d → ∀ name size,
      d.lookup name = some size ↔ LastOf (linesOf '\n' text) name size := by
  refine ⟨⟨?_, readLines_total⟩, fun d hd => (readLines_spec hd).2⟩
  intro hex
  obtain ⟨d, hd⟩ := hex
  exact (readLines_spec hd).1

/-! ## files that list a dataset -/

/-- `filename size` -/
def datasetLine (e : Str × Size) : Str := e.1 ++ ' ' :: e.2.digits

/-- a name that is one word -/
def Word (x : Str) : Prop := x ≠ [] ∧ ∀ c ∈ x, isSpace c = false

theorem isSpace_of_isDigit {c : Char} (h : c.isDigit = true) : isSpace c = false := by
  cases hs : isSpace c with
  | false => rfl
  | true =>
    have hmem : c ∈ [' ', '\t', '\n', '\r', Char.ofNat 11, Char.ofNat 12] := by
      simpa [isSpace] using hs
    have hall : [' ', '\t', '\n', '\r', Char.ofNat 11, Char.ofNat 12].all
        (fun c => !c.isDigit) = true := by decide
    have hnot := List.all_eq_true.mp hall c hmem
    rw [h] at hnot
    cases hnot

theorem Size.word (sz : Size) : Word sz.digits :=
  ⟨sz.isNat.1, fun c hc => isSpace_of_isDigit (sz.isNat.2 c hc)⟩

theorem nameSize_datasetLine {e : Str × Size} (h : Word e.1) :
    nameSize (datasetLine e ++ ['\n']) = .ok (e.1, e.2.digits) := by
  have hw : words isSpace (datasetLine e ++ ['\n']) = [e.1, e.2.digits] := by
    unfold datasetLine
    rw [List.append_assoc, List.cons_append, words_append_cons h.1 h.2 rfl,
      words_append_cons e.2.word.1 e.2.word.2 rfl, words_nil]
  unfold nameSize
  rw [hw]

theorem newline_notMem {e : Str × Size} (h : Word e.1) : '\n' ∉ datasetLine e := by
  intro hmem
  have hspace : isSpace '\n' = true := rfl
  rcases List.mem_append.mp hmem with hm | hm
  · rw [h.2 _ hm] at hspace
    cases hspace
  · rcases List.mem_cons.mp hm with hm | hm
    · exact absurd hm (by decide)
    · rw [e.2.word.2 _ hm] at hspace
      cases hspace

theorem readEntries {l : Entries} (hn : (l.map Prod.fst).Nodup) (hw : ∀ e ∈ l, Word e.1) (old : Raw) :
    ∃ raw, (l.map fun e => datasetLine e ++ ['\n']).foldlM readLine old = .ok raw ∧
      (∀ e ∈ l, raw.lookup e.1 = some e.2.digits) ∧
      ∀ x ∉ l.map Prod.fst, raw.lookup x = old.lookup x := by
  rw [List.foldlM_map]
  apply foldlM_total (I := fun (pre : Entries) (raw : Raw) => (∀ e ∈ pre, raw.lookup e.1 = some e.2.digits) ∧
    ∀ x ∉ pre.map Prod.fst, raw.lookup x = old.lookup x)
  · exact ⟨nofun, fun x _ => rfl⟩
  · intro pre e post raw hl hraw
    obtain ⟨hin, hout⟩ := hraw
    have hnew : ∀ e' ∈ pre, e'.1 ≠ e.1 := by
      intro e' he' heq
      rw [hl, List.map_append, List.map_cons] at hn
      exact (List.nodup_append.mp hn).2.2 _ (List.mem_map_of_mem he') _ List.mem_cons_self heq
    refine ⟨raw.insert e.1 e.2.digits, ?_, ?_, ?_⟩
    · unfold readLine
      rw [nameSize_datasetLine (hw e (by rw [hl]; simp))]
      rfl
    · intro e' he'
      rcases List.mem_append.mp he' with he' | he'
      · rw [Finmap.lookup_insert_of_ne _ (hnew e' he'), hin e' he']
      · rw [List.mem_singleton.mp he', Finmap.lookup_insert]
    · intro x hx
      rw [List.map_append, List.mem_append, not_or] at hx
      rw [Finmap.lookup_insert_of_ne _ fun heq => hx.2 (by simp [heq]), hout x hx.1]

/-- A file with a line for every name of a dataset is read as that dataset, whatever the order of
the lines; what stands before these lines counts for the other names only. -/
theorem read_printed {d : Dataset} {l : Entries} (hl : Lists l d) (hw : ∀ e ∈ l, Word e.1)
    {text : Str} (ht : text = [] ∨ ∃ t, text = t ++ ['\n']) {old : Raw}
    (hold : readDataset text = .ok old) :
    ∃ raw, readDataset (text ++ l.flatMap fun e => datasetLine e ++ ['\n']) = .ok raw ∧
      ∀ x, raw.lookup x = if x ∈ d then (d.lookup x).map Size.digits else old.lookup x := by
  obtain ⟨raw, hraw, hin, hout⟩ := readEntries hl.nodup hw old
  have hlines : linesOf '\n' (text ++ l.flatMap fun e => datasetLine e ++ ['\n'])
      = linesOf '\n' text ++ l.map fun e => datasetLine e ++ ['\n'] := by
    rw [← linesOf_flatMap fun e he => newline_notMem (hw e he)]
    rcases ht with rfl | ⟨t, rfl⟩
    · rfl
    · rw [List.append_assoc, List.singleton_append, linesOf_append]
  refine ⟨raw, ?_, ?_⟩
  · unfold readDataset at hold ⊢
    rw [hlines, List.foldlM_append, hold]
    exact hraw
  · intro x
    split
    · next hx =>
      obtain ⟨sz, hsz⟩ := Option.isSome_iff_exists.mp (Finmap.lookup_isSome.mpr hx)
      rw [hsz]
      exact hin _ ((hl.mem x sz).mpr hsz)
    · next hx =>
      apply hout
      intro hmem
      obtain ⟨e, he, rfl⟩ := List.mem_map.mp hmem
      exact hx (Finmap.mem_of_lookup_eq_some ((hl.mem e.1 e.2).mp he))

/-- A line about `x` and one about `z` stand before the line that lists `x`. -/
theorem read_printed_after : ∃ old raw, readDataset "x 9\nz  1 k\n".toList = .ok old ∧
    readDataset ("x 9\nz  1 k\n".toList ++
      [("x".toList, Size.ofNat 3)].flatMap fun e => datasetLine e ++ ['\n']) = .ok raw ∧
    ∀ x, raw.lookup x = if x ∈ Finmap.singleton (β := fun _ : Str => Size) "x".toList (Size.ofNat 3)
      then ((Finmap.singleton (β := fun _ : Str => Size) "x".toList (Size.ofNat 3)).lookup x).map
        Size.digits else old.lookup x := by
  have hlists : Lists [("x".toList, Size.ofNat 3)] (Finmap.singleton "x".toList (Size.ofNat 3)) := by
    refine ⟨List.nodup_singleton _, ?_⟩
    intro x sz
    by_cases hx : x = "x".toList
    · subst hx
      rw [Finmap.lookup_singleton_eq]
      simp [eq_comm]
    · have hne : x ≠ ['x'] := hx
      rw [Finmap.lookup_eq_none.mpr ((Finmap.mem_singleton _ _ _).not.mpr hx)]
      simp [hne]
  obtain ⟨old, hold⟩ : ∃ old, readDataset "x 9\nz  1 k\n".toList = .ok old :=
    readLines_total (by decide +kernel)
  have hword : ∀ e ∈ [("x".toList, Size.ofNat 3)], Word e.1 := by
    intro e he
    rw [List.mem_singleton.mp he]
    refine ⟨List.cons_ne_nil _ _, fun c hc => ?_⟩
    have hcx : c = 'x' := List.mem_singleton.mp hc
    rw [hcx]
    rfl
  obtain ⟨raw, hraw, hlook⟩ := read_printed hlists hword
    (.inr ⟨"x 9\nz  1 k".toList, by decide +kernel⟩) hold
  exact ⟨old, raw, hold, hraw, hlook⟩

end Compilebench
