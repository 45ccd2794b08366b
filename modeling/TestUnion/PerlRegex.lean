import Mathlib.Data.List.TakeWhile
import Mathlib.Tactic.Common

/-!
# Patterns with numbers

The fragment of the regular expressions of Perl that has texts, `(\d+)` and `(-?\d+)`.

* `matchHere`       a match at the start of a text, with what the groups capture; a group takes as
                    many digits as it can, and fewer only when the rest does not match after them;
* `search`          the leftmost match;
* `Spells p caps t` `t` is the pattern with the captures in the places of the groups;
* `search_sound`    a match is a part of the text that is spelled so;
* `Spells.captures`, `getD_captures`   its groups capture numbers;
* `occurrences w t` the places of a word in a text;
* `search_text`     a pattern that starts with a word matches only where the word is;
* `matchHere_digits_text`, `matchHere_digits`   a group takes all the digits when what is behind them
                    is no digit.
-/

namespace PerlRegex

inductive Item where
  | text (w : List Char)
  | digits
  | int

/-- from the longest run of digits down to a single one -/
def tryDigits (sign : List Char) (k : List Char → Option (List (List Char))) (s : List Char) :
    Option (List (List Char)) :=
  (List.range (s.takeWhile Char.isDigit).length).reverse.findSome? fun n =>
    (k (s.drop (n + 1))).map fun caps => (sign ++ s.take (n + 1)) :: caps

def matchHere : List Item → List Char → Option (List (List Char))
  | [], _ => some []
  | .text w :: p, s => if w.isPrefixOf s = true then matchHere p (s.drop w.length) else none
  | .digits :: p, s => tryDigits [] (matchHere p) s
  | .int :: p, s =>
    if s.head? = some '-' then tryDigits ['-'] (matchHere p) s.tail else tryDigits [] (matchHere p) s

def search (p : List Item) : List Char → Option (List (List Char))
  | [] => matchHere p []
  | c :: s => (matchHere p (c :: s)).or (search p s)

/-! ## what a match is -/

def IsDigits (d : List Char) : Prop := d ≠ [] ∧ ∀ c ∈ d, c.isDigit = true

theorem isDigits_of_all {d : List Char} (hne : d ≠ []) (h : d.all Char.isDigit = true) :
    IsDigits d := ⟨hne, List.all_eq_true.mp h⟩

inductive Spells : List Item → List (List Char) → List Char → Prop
  | nil : Spells [] [] []
  | text {p caps t} (w : List Char) : Spells p caps t → Spells (.text w :: p) caps (w ++ t)
  | digits {p caps t d} : IsDigits d → Spells p caps t → Spells (.digits :: p) (d :: caps) (d ++ t)
  | int {p caps t d} : IsDigits d → Spells p caps t → Spells (.int :: p) (d :: caps) (d ++ t)
  | minus {p caps t d} : IsDigits d → Spells p caps t →
    Spells (.int :: p) (('-' :: d) :: caps) ('-' :: (d ++ t))

def Item.isGroup : Item → Bool
  | .text _ => false
  | _ => true

/-- what a group captures -/
def Item.Captures : Item → List Char → Prop
  | .text _, _ => False
  | .digits, w => IsDigits w
  | .int, w => IsDigits w ∨ ∃ d, IsDigits d ∧ w = '-' :: d

section
variable {p : List Item} {caps : List (List Char)} {s t sign : List Char}
  {k : List Char → Option (List (List Char))}

theorem tryDigits_some (h : tryDigits sign k s = some caps) : ∃ d rest caps', IsDigits d ∧
    s = d ++ rest ∧ k rest = some caps' ∧ caps = (sign ++ d) :: caps' := by
  obtain ⟨n, hn, hk⟩ := List.exists_of_findSome?_eq_some h
  rw [List.mem_reverse, List.mem_range] at hn
  obtain ⟨caps', hcaps', rfl⟩ := Option.map_eq_some_iff.mp hk
  refine ⟨s.take (n + 1), s.drop (n + 1), caps', ⟨?_, ?_⟩, (List.take_append_drop _ _).symm, hcaps',
    rfl⟩
  · have hlen := (List.takeWhile_prefix (l := s) Char.isDigit).length_le
    apply List.ne_nil_of_length_pos
    rw [List.length_take]
    omega
  · intro c hc
    rw [← List.takeWhile_append_dropWhile (p := Char.isDigit) (l := s),
      List.take_append_of_le_length hn] at hc
    exact List.mem_takeWhile_imp (List.mem_of_mem_take hc)

theorem matchHere_sound (h : matchHere p s = some caps) :
    ∃ t rest, s = t ++ rest ∧ Spells p caps t := by
  induction p generalizing s caps with
  | nil =>
    cases h
    exact ⟨[], s, rfl, .nil⟩
  | cons item p ih =>
    cases item with
    | text w =>
      unfold matchHere at h
      split at h
      · next hw =>
        obtain ⟨t, rest, hs, hspells⟩ := ih h
        obtain ⟨u, rfl⟩ := List.isPrefixOf_iff_prefix.mp hw
        rw [List.drop_left] at hs
        exact ⟨w ++ t, rest, by rw [hs, List.append_assoc], .text w hspells⟩
      · cases h
    | digits =>
      obtain ⟨d, u, caps', hd, rfl, hk, rfl⟩ := tryDigits_some h
      obtain ⟨t, rest, rfl, hspells⟩ := ih hk
      exact ⟨d ++ t, rest, (List.append_assoc ..).symm, .digits hd hspells⟩
    | int =>
      unfold matchHere at h
      split at h
      · next hminus =>
        obtain ⟨v, rfl⟩ := List.head?_eq_some_iff.mp hminus
        obtain ⟨d, u, caps', hd, rfl, hk, rfl⟩ := tryDigits_some h
        obtain ⟨t, rest, rfl, hspells⟩ := ih hk
        refine ⟨'-' :: (d ++ t), rest, ?_, .minus hd hspells⟩
        rw [List.cons_append, List.append_assoc]
      · obtain ⟨d, u, caps', hd, rfl, hk, rfl⟩ := tryDigits_some h
        obtain ⟨t, rest, rfl, hspells⟩ := ih hk
        exact ⟨d ++ t, rest, (List.append_assoc ..).symm, .int hd hspells⟩

theorem search_sound (h : search p s = some caps) :
    ∃ before t rest, s = before ++ (t ++ rest) ∧ Spells p caps t := by
  induction s with
  | nil =>
    obtain ⟨t, rest, hs, hspells⟩ := matchHere_sound h
    exact ⟨[], t, rest, hs, hspells⟩
  | cons c s ih =>
    unfold search at h
    rcases Option.or_eq_some_iff.mp h with hhere | ⟨-, hlater⟩
    · obtain ⟨t, rest, hs, hspells⟩ := matchHere_sound hhere
      exact ⟨[], t, rest, hs, hspells⟩
    · obtain ⟨before, t, rest, hs, hspells⟩ := ih hlater
      exact ⟨c :: before, t, rest, by rw [hs]; rfl, hspells⟩

theorem Spells.captures (h : Spells p caps t) :
    List.Forall₂ Item.Captures (p.filter Item.isGroup) caps := by
  induction h with
  | nil => exact .nil
  | text w _ ih => exact ih
  | digits hd _ ih => exact .cons hd ih
  | int hd _ ih => exact .cons (.inl hd) ih
  | minus hd _ ih => exact .cons (.inr ⟨_, hd, rfl⟩) ih

theorem search_captures (h : search p s = some caps) :
    List.Forall₂ Item.Captures (p.filter Item.isGroup) caps := by
  obtain ⟨-, t, -, -, hspells⟩ := search_sound h
  exact hspells.captures

/-- A group `(\d+)` captures digits; a group that the pattern does not have captures nothing. -/
theorem getD_captures {items : List Item} {n : ℕ} (h : List.Forall₂ Item.Captures items caps)
    (hn : ∀ item, items[n]? = some item → item = .digits) :
    caps.getD n [] = [] ∨ IsDigits (caps.getD n []) := by
  induction h generalizing n with
  | nil => exact .inl rfl
  | @cons item w items caps hw _ ih =>
    cases n with
    | zero =>
      have hitem : item = .digits := hn item rfl
      rw [hitem] at hw
      exact .inr hw
    | succ n => exact ih hn

end

/-! ## where a match is -/

def occurrences (w s : List Char) : List ℕ :=
  (List.range s.length).filter fun n => w.isPrefixOf (s.drop n)

section
variable {p : List Item} {d rest s w : List Char} {c : Char}

theorem matchHere_text : matchHere (.text w :: p) s =
    if w.isPrefixOf s = true then matchHere p (s.drop w.length) else none := rfl

@[simp] theorem matchHere_text_append : matchHere (.text w :: p) (w ++ s) = matchHere p s := by
  rw [matchHere_text, if_pos (List.isPrefixOf_iff_prefix.mpr (List.prefix_append _ _)),
    List.drop_left]

theorem search_text : search (.text (c :: w) :: p) s =
    (occurrences (c :: w) s).findSome? fun n => matchHere p (s.drop (n + (c :: w).length)) := by
  induction s with
  | nil => rfl
  | cons a s ih =>
    have hlater : (occurrences (c :: w) s).findSome?
        (fun n => matchHere p (s.drop (n + (c :: w).length))) =
        (((List.range s.length).map Nat.succ).filter fun n =>
          (c :: w).isPrefixOf ((a :: s).drop n)).findSome?
            fun n => matchHere p ((a :: s).drop (n + (c :: w).length)) := by
      rw [List.filter_map, List.findSome?_map]
      congr 1
      funext n
      show _ = matchHere p ((a :: s).drop (n.succ + (c :: w).length))
      rw [Nat.succ_add, List.drop_succ_cons]
    show (matchHere (.text (c :: w) :: p) (a :: s)).or (search (.text (c :: w) :: p) s) = _
    rw [ih, hlater]
    unfold occurrences
    rw [List.length_cons (a := a), List.range_succ_eq_map, List.filter_cons, matchHere_text,
      List.drop_zero]
    split
    · rw [List.findSome?_cons, Nat.zero_add]
      cases matchHere p ((a :: s).drop (c :: w).length) with
      | none => rfl
      | some caps => rfl
    · rfl

/-- The last digit is the last one that a shorter run could stop before. -/
theorem tryDigits_run {k : List Char → Option (List (List Char))} {sign : List Char}
    (hd : IsDigits d) (hrest : ∀ a ∈ rest.head?, a.isDigit = false)
    (hk : k rest = none → ∀ n < d.length, k ((d ++ rest).drop n) = none) :
    tryDigits sign k (d ++ rest) = (k rest).map fun caps => (sign ++ d) :: caps := by
  have hrun : (d ++ rest).takeWhile Char.isDigit = d := by
    rw [List.takeWhile_append_of_pos hd.2]
    cases rest with
    | nil => exact List.append_nil d
    | cons a rest =>
      rw [List.takeWhile_cons_of_neg (by rw [hrest a rfl]; exact nofun), List.append_nil]
  obtain ⟨m, hm⟩ := Nat.exists_eq_add_one_of_ne_zero (List.length_pos_iff.mpr hd.1).ne'
  unfold tryDigits
  rw [hrun, hm, List.range_succ, List.reverse_append, List.reverse_singleton, List.singleton_append,
    List.findSome?_cons, ← hm, List.drop_left, List.take_left]
  cases hfirst : k rest with
  | some caps => rfl
  | none =>
    show List.findSome? _ _ = none
    rw [List.findSome?_eq_none_iff]
    intro n hn
    rw [List.mem_reverse, List.mem_range] at hn
    rw [hk hfirst (n + 1) (by omega)]
    rfl

theorem matchHere_digits_text (hd : IsDigits d) (hrest : ∀ a ∈ rest.head?, a.isDigit = false)
    (hc : c.isDigit = false) : matchHere (.digits :: .text (c :: w) :: p) (d ++ rest) =
      (matchHere (.text (c :: w) :: p) rest).map fun caps => d :: caps := by
  show tryDigits [] _ _ = _
  refine tryDigits_run hd hrest fun _ n hn => ?_
  rw [List.drop_append_of_le_length hn.le, matchHere_text]
  refine if_neg fun h => ?_
  -- a shorter run leaves a digit in front of the word
  obtain ⟨a, u, hu⟩ := List.exists_cons_of_ne_nil (List.ne_nil_of_length_pos
    (show 0 < (d.drop n).length by rw [List.length_drop]; omega))
  have hdigit : a.isDigit = true :=
    hd.2 a (List.mem_of_mem_drop (i := n) (by rw [hu]; exact List.mem_cons_self))
  rw [hu, List.cons_append, List.isPrefixOf_iff_prefix, List.cons_prefix_cons] at h
  rw [← h.1, hc] at hdigit
  cases hdigit

theorem matchHere_digits : matchHere [.digits] s =
    if s.takeWhile Char.isDigit = [] then none else some [s.takeWhile Char.isDigit] := by
  show tryDigits [] _ s = _
  split
  · next hnone =>
    unfold tryDigits
    rw [hnone]
    rfl
  · next hsome =>
    have hd : IsDigits (s.takeWhile Char.isDigit) := ⟨hsome, fun a ha => List.mem_takeWhile_imp ha⟩
    have hrest : ∀ a ∈ (s.dropWhile Char.isDigit).head?, a.isDigit = false := fun a ha => by
      have hnot := List.head?_dropWhile_not Char.isDigit s
      rw [Option.mem_def.mp ha] at hnot
      exact hnot
    have hmatch : tryDigits [] (matchHere []) (s.takeWhile Char.isDigit ++ s.dropWhile Char.isDigit) =
        (matchHere [] (s.dropWhile Char.isDigit)).map fun caps => s.takeWhile Char.isDigit :: caps :=
      tryDigits_run hd hrest nofun
    rw [List.takeWhile_append_dropWhile] at hmatch
    exact hmatch

end

end PerlRegex
