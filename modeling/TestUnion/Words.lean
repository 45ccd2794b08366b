import Mathlib.Data.List.DropRight
import Mathlib.Data.List.Basic
import Mathlib.Tactic.Common

/-!
# Words and fields

* `words sep s`     the runs of `s` without separators, as `split` of a shell or of awk;
* `fields x s`      what stands between the `x` in `s`, without empty fields at the end, as `split` of
                    Perl;
* `words_append_cons`, `words_cons_sep`, `words_lines`   the words of a text that starts with a word or
                    with a separator, and of a text of one word a line;
* `fields_intercalate`      the fields of a joined list;
* `takeWhile_append_cons`   the longest start with a property;
* `linesOf nl s`    the lines of a file, each with its `nl`, the last one maybe without;
* `linesOf_append`, `linesOf_concat`, `linesOf_flatMap`   the lines of a file that is put together;
* `chomp nl s`      a line without its `nl`.
-/

variable {α : Type*}

def words (sep : α → Bool) (s : List α) : List (List α) :=
  (s.splitOnP sep).filter fun w => !w.isEmpty

def fields [BEq α] (x : α) (s : List α) : List (List α) :=
  (s.splitOn x).rdropWhile List.isEmpty

section
variable {sep : α → Bool} {w s rest : List α} {c : α}

@[simp] theorem words_nil : words sep [] = [] := rfl

theorem words_append_cons (hne : w ≠ []) (hw : ∀ a ∈ w, sep a = false) (hc : sep c = true) :
    words sep (w ++ c :: rest) = w :: words sep rest := by
  unfold words
  rw [List.splitOnP_append_cons_of_forall_mem hw c hc, List.filter_cons_of_pos (by simpa using hne)]

theorem words_cons_sep (hc : sep c = true) : words sep (c :: s) = words sep s := by
  unfold words
  have hnil : ∀ a ∈ ([] : List α), sep a = false := nofun
  rw [← List.nil_append (c :: s), List.splitOnP_append_cons_of_forall_mem hnil c hc]
  rfl

theorem words_lines {ws : List (List α)} (hws : ∀ w ∈ ws, w ≠ [] ∧ ∀ a ∈ w, sep a = false)
    (hc : sep c = true) : words sep (ws.flatMap fun w => w ++ [c]) = ws := by
  induction ws with
  | nil => exact words_nil
  | cons w ws ih =>
    obtain ⟨hne, hw⟩ := hws w List.mem_cons_self
    rw [List.flatMap_cons, List.append_assoc, List.singleton_append, words_append_cons hne hw hc,
      ih fun v hv => hws v (List.mem_cons_of_mem _ hv)]

theorem fields_intercalate [BEq α] [LawfulBEq α] {x : α} {ls : List (List α)} (hls : ls ≠ [])
    (hx : ∀ l ∈ ls, x ∉ l) (hne : ∀ l ∈ ls, l ≠ []) : fields x ([x].intercalate ls) = ls := by
  unfold fields
  rw [List.splitOn_intercalate x hx hls, List.rdropWhile_eq_self_iff]
  intro h
  simpa using hne _ (List.getLast_mem h)

theorem takeWhile_append_cons {p : α → Bool} (hw : ∀ a ∈ w, p a = true) (hc : p c = false) :
    (w ++ c :: rest).takeWhile p = w := by
  rw [List.takeWhile_append_of_pos hw, List.takeWhile_cons_of_neg (by rw [hc]; exact nofun),
    List.append_nil]

/-! ## lines -/

/-- one more letter before the first line -/
def growLine (c : α) : List (List α) → List (List α)
  | [] => [[c]]
  | l :: ls => (c :: l) :: ls

def linesOf [DecidableEq α] (nl : α) : List α → List (List α)
  | [] => []
  | c :: s => if c = nl then [c] :: linesOf nl s else growLine c (linesOf nl s)

theorem growLine_ne_nil (c : α) (ls : List (List α)) : growLine c ls ≠ [] := by
  cases ls <;> exact List.cons_ne_nil _ _

theorem growLine_append (c : α) {ls : List (List α)} (h : ls ≠ []) (ms : List (List α)) :
    growLine c (ls ++ ms) = growLine c ls ++ ms := by
  cases ls with
  | nil => exact absurd rfl h
  | cons l ls => rfl

variable [DecidableEq α] {nl : α} {l : List α}

@[simp]
theorem linesOf_cons_self (s : List α) : linesOf nl (nl :: s) = [nl] :: linesOf nl s := if_pos rfl

theorem linesOf_cons (h : c ≠ nl) : linesOf nl (c :: s) = growLine c (linesOf nl s) := if_neg h

theorem linesOf_ne_nil (h : s ≠ []) : linesOf nl s ≠ [] := by
  cases s with
  | nil => exact absurd rfl h
  | cons c s =>
    unfold linesOf
    split
    · exact List.cons_ne_nil _ _
    · exact growLine_ne_nil _ _

theorem linesOf_append (s t : List α) :
    linesOf nl (s ++ nl :: t) = linesOf nl (s ++ [nl]) ++ linesOf nl t := by
  induction s with
  | nil => rw [List.nil_append, List.nil_append, linesOf_cons_self, linesOf_cons_self]; rfl
  | cons c s ih =>
    rw [List.cons_append, List.cons_append]
    by_cases hc : c = nl
    · rw [hc, linesOf_cons_self, linesOf_cons_self, ih, List.cons_append]
    · have hne : linesOf nl (s ++ [nl]) ≠ [] :=
        linesOf_ne_nil (List.append_ne_nil_of_right_ne_nil _ (List.cons_ne_nil _ _))
      rw [linesOf_cons hc, linesOf_cons hc, ih, growLine_append c hne]

theorem linesOf_concat (h : nl ∉ l) : linesOf nl (l ++ [nl]) = [l ++ [nl]] := by
  induction l with
  | nil => exact linesOf_cons_self []
  | cons c l ih =>
    rw [List.mem_cons, not_or] at h
    rw [List.cons_append, linesOf_cons (Ne.symm h.1), ih h.2]
    rfl

theorem linesOf_flatMap {β : Type*} {f : β → List α} {bs : List β} (h : ∀ b ∈ bs, nl ∉ f b) :
    linesOf nl (bs.flatMap fun b => f b ++ [nl]) = bs.map fun b => f b ++ [nl] := by
  induction bs with
  | nil => rfl
  | cons b bs ih =>
    rw [List.flatMap_cons, List.append_assoc, List.singleton_append,
      linesOf_append, linesOf_concat (h b List.mem_cons_self),
      ih fun c hc => h c (List.mem_cons_of_mem _ hc)]
    rfl

theorem linesOf_flatMap_append {ls : List (List α)} (h : ∀ l ∈ ls, nl ∉ l) (s : List α) :
    linesOf nl ((ls.flatMap fun l => l ++ [nl]) ++ s) =
      (ls.map fun l => l ++ [nl]) ++ linesOf nl s := by
  induction ls with
  | nil => rfl
  | cons l ls ih =>
    rw [List.flatMap_cons, List.append_assoc, List.append_assoc, List.singleton_append,
      linesOf_append, linesOf_concat (h l List.mem_cons_self),
      ih fun m hm => h m (List.mem_cons_of_mem _ hm)]
    rfl

def chomp (nl : α) (s : List α) : List α := if s.getLast? = some nl then s.dropLast else s

@[simp] theorem chomp_concat (l : List α) : chomp nl (l ++ [nl]) = l := by
  unfold chomp
  rw [List.getLast?_concat, if_pos rfl, List.dropLast_concat]

end
