import TestUnion.BtrfsDecode.Distance
import TestUnion.Words

/-!
# btrfs-decode: the type of a block group

* `typeLine`        what is printed of a block group with these names;
* `Called v name`   a block group with the flags `v` has this name;
* `relocatingLine`  the message, with the flags in a base;
* `Typed`           the names that are printed are those of the flags;
* `typeLine_inj`    the names can be read off the printed line;
* `search_line`     the pattern takes the digits up to the first letter;
* `ReadsRight`      the flags whose low bits survive when their digits are taken as hexadecimal;
* `typed_iff`       these are the ones that are named right.
-/

namespace BtrfsDecode

open PerlRegex

/-! ## the names -/

/-- the names that are printed for the flags `fl` -/
def namesOf (fl : UInt64) : List String :=
  let raid := profiles.filter fun f => hasFlag fl f.1
  (kinds.filter fun f => hasFlag fl f.1).map (·.2) ++ raid.map (·.2) ++
    if raid = [] then ["SINGLE "] else []

def typeLine (b : Word) (names : List String) : List Char :=
  "relocating bg ".toList ++ b ++ " type ".toList ++ names.flatMap String.toList ++ ['\n']

/-- the names of the bits that are set, and `SINGLE` when there is no profile -/
def Called (v : ℕ) (name : String) : Prop :=
  (∃ f ∈ kinds ++ profiles, f.2 = name ∧ v.testBit f.1 = true) ∨
    name = "SINGLE " ∧ ∀ f ∈ profiles, v.testBit f.1 = false

def relocatingLine (before b f after : List Char) : List Char :=
  before ++ ("relocating block group ".toList ++ (b ++ (" flags ".toList ++ (f ++ after))))

def Typed (line : List Char) (b : Word) (v : ℕ) : Prop :=
  ∃ names, relocating line = typeLine b names ∧ ∀ name, name ∈ names ↔ Called v name

/-- the digits of `v` in front of its first letter -/
def leading (v : ℕ) : Word := (Nat.toDigits 16 v).takeWhile Char.isDigit

/-- When the digits of `v` are taken for hexadecimal ones, the seven low bits stay. In base ten these
bits come from the last two digits, and from 17 digits on the number is the largest one there is. -/
def ReadsRight (base v : ℕ) : Prop :=
  if base = 10 then
    if v < 10 ^ 16 then v % 128 = (16 * (v / 10 % 10) + v % 10) % 128 else v % 128 = 127
  else leading v ≠ [] ∧ v % 128 = Nat.ofDigitChars 16 (leading v) 0 % 128

section
variable {fl : UInt64} {v w i : ℕ} {name : String}

theorem mem_flags {f : ℕ × String} (h : f ∈ kinds ++ profiles) : f.1 < 64 := by
  revert f
  decide

theorem hasFlag_iff (hi : i < 64) : hasFlag fl i = true ↔ fl.toNat.testBit i = true := by
  unfold hasFlag
  rw [decide_eq_true_iff, and_shift_ne_zero hi]

theorem mem_namesOf : name ∈ namesOf fl ↔ Called fl.toNat name := by
  have hbit : ∀ f ∈ kinds ++ profiles, hasFlag fl f.1 = true ↔ fl.toNat.testBit f.1 = true :=
    fun f hf => hasFlag_iff (mem_flags hf)
  have hnone : (profiles.filter fun f => hasFlag fl f.1) = [] ↔
      ∀ f ∈ profiles, fl.toNat.testBit f.1 = false := by
    rw [List.filter_eq_nil_iff]
    refine forall₂_congr fun f hf => ?_
    rw [hbit f (List.mem_append_right _ hf), Bool.not_eq_true]
  have hsingle : name ∈ (if (profiles.filter fun f => hasFlag fl f.1) = [] then ["SINGLE "] else []) ↔
      name = "SINGLE " ∧ ∀ f ∈ profiles, fl.toNat.testBit f.1 = false := by
    rw [← hnone]
    split
    · next h => rw [List.mem_singleton, and_iff_left h]
    · next h => exact iff_of_false List.not_mem_nil fun hs => h hs.2
  show name ∈ _ ++ _ ++ _ ↔ _
  rw [List.mem_append, hsingle, ← List.map_append, ← List.filter_append, List.mem_map]
  unfold Called
  refine or_congr_left (exists_congr fun f => ?_)
  rw [List.mem_filter, and_assoc]
  refine and_congr_right fun hf => ?_
  rw [hbit f hf, and_comm]

/-- The bits are given by the names. -/
theorem called_flag {f : ℕ × String} (hf : f ∈ kinds ++ profiles) :
    Called v f.2 ↔ v.testBit f.1 = true := by
  have hname : ∀ f ∈ kinds ++ profiles, f.2 ≠ "SINGLE " ∧
      ∀ g ∈ kinds ++ profiles, g.2 = f.2 → g.1 = f.1 := by decide
  obtain ⟨hne, hone⟩ := hname f hf
  refine ⟨fun h => ?_, fun h => .inl ⟨f, hf, rfl, h⟩⟩
  rcases h with ⟨g, hg, hgf, hbit⟩ | ⟨hs, -⟩
  · rwa [← hone g hg hgf]
  · exact absurd hs hne

theorem called_congr (h : ∀ i < 7, v.testBit i = w.testBit i) : Called v name ↔ Called w name := by
  have hlow : ∀ f ∈ kinds ++ profiles, f.1 < 7 := by decide
  unfold Called
  refine or_congr (exists_congr fun f => and_congr_right fun hf => ?_)
    (and_congr_right fun _ => forall₂_congr fun f hf => ?_)
  · rw [h f.1 (hlow f hf)]
  · rw [h f.1 (hlow f (List.mem_append_right _ hf))]

theorem forall_called_iff : (∀ name, Called v name ↔ Called w name) ↔ v % 128 = w % 128 := by
  have hall : ∀ i < 7, ∃ f ∈ kinds ++ profiles, f.1 = i := by decide
  constructor
  · intro h
    apply Nat.eq_of_testBit_eq
    intro i
    rw [show 128 = 2 ^ 7 from rfl, Nat.testBit_mod_two_pow, Nat.testBit_mod_two_pow]
    by_cases hi : i < 7
    · obtain ⟨f, hf, rfl⟩ := hall i hi
      have hname := h f.2
      rw [called_flag hf, called_flag hf] at hname
      rw [Bool.eq_iff_iff.mpr hname]
    · rw [decide_eq_false hi, Bool.false_and, Bool.false_and]
  · intro h name
    refine called_congr fun i hi => ?_
    have hbit := congrArg (fun n => Nat.testBit n i) h
    simpa only [show 128 = 2 ^ 7 from rfl, Nat.testBit_mod_two_pow, hi, decide_true,
      Bool.true_and] using hbit

/-! ## the printed line -/

/-- Every name ends with its only blank. -/
theorem called_word (h : Called v name) : name.toList = name.toList.dropLast ++ [' '] ∧
    name.toList.dropLast ≠ [] ∧ ∀ c ∈ name.toList.dropLast, decide (c = ' ') = false := by
  have hall : ∀ name ∈ "SINGLE " :: (kinds ++ profiles).map (·.2),
      name.toList = name.toList.dropLast ++ [' '] ∧ name.toList.dropLast ≠ [] ∧
        (name.toList.dropLast.all fun c => !decide (c = ' ')) = true := by decide
  have hname : name ∈ "SINGLE " :: (kinds ++ profiles).map (·.2) := by
    rcases h with ⟨f, hf, rfl, -⟩ | ⟨rfl, -⟩
    · exact List.mem_cons_of_mem _ (List.mem_map_of_mem hf)
    · exact List.mem_cons_self
  obtain ⟨hlast, hne, hblank⟩ := hall name hname
  refine ⟨hlast, hne, fun c hc => ?_⟩
  have hc := List.all_eq_true.mp hblank c hc
  rwa [Bool.not_eq_true'] at hc

theorem words_names {names : List String} (h : ∀ name ∈ names, Called v name) :
    words (fun c => decide (c = ' ')) (names.flatMap String.toList) =
      names.map fun name => name.toList.dropLast := by
  have hlines : names.flatMap String.toList =
      (names.map fun name => name.toList.dropLast).flatMap fun u => u ++ [' '] := by
    rw [List.flatMap_map]
    exact List.flatMap_congr fun name hname => (called_word (h name hname)).1
  rw [hlines]
  refine words_lines (fun u hu => ?_) rfl
  obtain ⟨name, hname, rfl⟩ := List.mem_map.mp hu
  exact (called_word (h name hname)).2

theorem flatMap_names_subset {names names' : List String} (h : ∀ name ∈ names, Called v name)
    (h' : ∀ name ∈ names', Called w name)
    (heq : names.flatMap String.toList = names'.flatMap String.toList) : names ⊆ names' := by
  intro name hname
  have hmap := (words_names h).symm.trans ((congrArg _ heq).trans (words_names h'))
  have hmem : name.toList.dropLast ∈ names'.map fun name => name.toList.dropLast := by
    rw [← hmap]
    exact List.mem_map_of_mem hname
  obtain ⟨name', hname', hdrop⟩ := List.mem_map.mp hmem
  have hlist : name'.toList = name.toList := by
    rw [(called_word (h' name' hname')).1, (called_word (h name hname)).1, hdrop]
  rwa [String.toList_inj.mp hlist] at hname'

theorem typeLine_inj {b : Word} {names names' : List String}
    (h : typeLine b names = typeLine b names') :
    names.flatMap String.toList = names'.flatMap String.toList := by
  unfold typeLine at h
  exact List.append_cancel_left (List.append_cancel_right h)

end

/-! ## the flags that are taken from the line -/

section
variable {line before after b f : List Char} {base v n : ℕ}

theorem uvOfInt_natCast (n : ℕ) : (uvOfInt n).toNat = min n (2 ^ 64 - 1) := by
  have hint : max (-2 ^ 63) (min (n : ℤ) (2 ^ 64 - 1)) = ((min n (2 ^ 64 - 1) : ℕ) : ℤ) := by omega
  have hlt : min n (2 ^ 64 - 1) < 2 ^ 64 := by omega
  unfold uvOfInt
  rw [hint]
  show (UInt64.ofNat (((min n (2 ^ 64 - 1) : ℕ) : ℤ) % 2 ^ 64).toNat).toNat = _
  rw [Int.emod_eq_of_lt (by omega) (by omega), Int.toNat_natCast, UInt64.toNat_ofNat_of_lt' hlt]

theorem flagNames_eq (fl : UInt64) (names : List (ℕ × String)) : flagNames fl names =
    ((names.filter fun f => hasFlag fl f.1).map (·.2)).flatMap String.toList := by
  rw [List.flatMap_map]
  rfl

theorem flagNames_nil_iff {fl : UInt64} :
    flagNames fl profiles = [] ↔ (profiles.filter fun f => hasFlag fl f.1) = [] := by
  have hname : ∀ f ∈ profiles, f.2.toList ≠ [] := by decide
  unfold flagNames
  rw [List.flatMap_eq_nil_iff]
  refine ⟨fun h => ?_, fun h => by rw [h]; exact nofun⟩
  refine List.eq_nil_iff_forall_not_mem.mpr fun f hf => ?_
  exact hname f (List.mem_of_mem_filter hf) (h f hf)

theorem flatMap_namesOf (fl : UInt64) : (namesOf fl).flatMap String.toList =
    flagNames fl kinds ++ flagNames fl profiles ++
      if flagNames fl profiles = [] then "SINGLE ".toList else [] := by
  unfold namesOf
  rw [List.flatMap_append, List.flatMap_append, ← flagNames_eq, ← flagNames_eq]
  simp only [flagNames_nil_iff]
  split
  · rfl
  · rfl

theorem relocating_some (h : search relocatingPattern line = some [b, f]) :
    relocating line = typeLine b (namesOf (uvOfInt (Nat.ofDigitChars 16 f 0))) := by
  unfold relocating
  rw [h]
  show "relocating bg ".toList ++ b ++ " type ".toList ++
    flagNames (uvOfInt (Nat.ofDigitChars 16 f 0)) kinds ++
    flagNames (uvOfInt (Nat.ofDigitChars 16 f 0)) profiles ++
    (if flagNames (uvOfInt (Nat.ofDigitChars 16 f 0)) profiles = [] then "SINGLE ".toList else []) ++
    ['\n'] = _
  unfold typeLine
  rw [flatMap_namesOf]
  simp only [List.append_assoc]

theorem typed_some (h : search relocatingPattern line = some [b, f]) :
    Typed line b v ↔ v % 128 = min (Nat.ofDigitChars 16 f 0) (2 ^ 64 - 1) % 128 := by
  have hnames : ∀ name, name ∈ namesOf (uvOfInt (Nat.ofDigitChars 16 f 0)) ↔
      Called (min (Nat.ofDigitChars 16 f 0) (2 ^ 64 - 1)) name := fun name => by
    rw [mem_namesOf, uvOfInt_natCast]
  rw [← forall_called_iff]
  constructor
  · rintro ⟨names, hprinted, hcalled⟩
    rw [relocating_some h] at hprinted
    have hflat := typeLine_inj hprinted
    intro name
    rw [← hcalled, ← hnames]
    exact ⟨fun hm => flatMap_names_subset (fun _ => (hcalled _).mp) (fun _ => (hnames _).mp)
        hflat.symm hm,
      fun hm => flatMap_names_subset (fun _ => (hnames _).mp) (fun _ => (hcalled _).mp) hflat hm⟩
  · intro hcalled
    exact ⟨_, relocating_some h, fun name => (hnames name).trans (hcalled name).symm⟩

theorem not_typed_none (h : search relocatingPattern line = none) : ¬ Typed line b v := by
  rintro ⟨names, hprinted, -⟩
  unfold relocating at hprinted
  rw [h] at hprinted
  exact nomatch hprinted

/-- The flags are read up to the first character that is no digit. -/
theorem search_line (hb : IsDigits b) (hone : occurrences "relocating block group ".toList
    (relocatingLine before b f after) = [before.length]) :
    search relocatingPattern (relocatingLine before b f after) =
      if (f ++ after).takeWhile Char.isDigit = [] then none
      else some [b, (f ++ after).takeWhile Char.isDigit] := by
  have hsearch : search relocatingPattern (relocatingLine before b f after) =
      ((occurrences "relocating block group ".toList (relocatingLine before b f after)).findSome?
        fun n => matchHere [.digits, .text " flags ".toList, .digits]
          ((relocatingLine before b f after).drop (n + "relocating block group ".toList.length))) :=
    search_text
  have hdrop : (relocatingLine before b f after).drop
      (before.length + "relocating block group ".toList.length) =
      b ++ (" flags ".toList ++ (f ++ after)) := by
    unfold relocatingLine
    rw [← List.append_assoc, ← List.length_append, List.drop_left]
  have hflags : matchHere [.text " flags ".toList, .digits] (" flags ".toList ++ (f ++ after)) =
      matchHere [.digits] (f ++ after) := matchHere_text_append
  have hgroup : matchHere [.digits, .text " flags ".toList, .digits]
      (b ++ (" flags ".toList ++ (f ++ after))) =
      (matchHere [.text " flags ".toList, .digits] (" flags ".toList ++ (f ++ after))).map
        fun caps => b :: caps :=
    matchHere_digits_text hb (fun a ha => by cases ha; rfl) rfl
  rw [hsearch, hone, List.findSome?_singleton, hdrop, hgroup, hflags, matchHere_digits]
  split
  · rfl
  · rfl

theorem takeWhile_digits (hafter : ∀ c ∈ after.head?, c.isAlphanum = false) :
    (f ++ after).takeWhile Char.isDigit = f.takeWhile Char.isDigit := by
  have hnone : after.takeWhile Char.isDigit = [] := by
    cases after with
    | nil => rfl
    | cons c after =>
      refine List.takeWhile_cons_of_neg fun hc => ?_
      have halpha := hafter c rfl
      unfold Char.isAlphanum at halpha
      rw [hc, Bool.or_true] at halpha
      cases halpha
  rw [List.takeWhile_append]
  split
  · next hall => rw [hnone, List.append_nil, (List.takeWhile_prefix Char.isDigit).eq_of_length hall]
  · rfl

theorem typed_line_iff (hb : IsDigits b) (hone : occurrences "relocating block group ".toList
    (relocatingLine before b f after) = [before.length])
    (hafter : ∀ c ∈ after.head?, c.isAlphanum = false) :
    Typed (relocatingLine before b f after) b v ↔ f.takeWhile Char.isDigit ≠ [] ∧
      v % 128 = min (Nat.ofDigitChars 16 (f.takeWhile Char.isDigit) 0) (2 ^ 64 - 1) % 128 := by
  have hsearch := search_line hb hone
  rw [takeWhile_digits hafter] at hsearch
  split at hsearch
  · next hnil => exact iff_of_false (not_typed_none hsearch) fun h => h.1 hnil
  · next hne => rw [typed_some hsearch, and_iff_right hne]

/-! ## the flags that survive -/

theorem reread_mod : reread 16 n % 128 = (16 * (n / 10 % 10) + n % 10) % 128 := by
  have hlast : reread 16 (n / 10) % 16 = n / 10 % 10 := by
    by_cases hn : n / 10 < 10
    · rw [reread_of_lt hn]
      omega
    · rw [reread_step (by omega)]
      omega
  by_cases hn : n < 10
  · rw [reread_of_lt hn]
    omega
  · rw [reread_step (by omega)]
    omega

theorem readsRight_ten : ReadsRight 10 v ↔ v % 128 = min (reread 16 v) (2 ^ 64 - 1) % 128 := by
  unfold ReadsRight
  rw [if_pos rfl]
  split
  · next hsmall =>
    have hlt : reread 16 v < 16 ^ 16 := reread_lt (by decide) (by decide) hsmall
    rw [min_eq_left (by omega), reread_mod]
  · next hlarge =>
    have hle : 16 ^ 16 ≤ reread 16 v := le_reread (by decide) (Nat.le_of_not_lt hlarge)
    rw [min_eq_right (by omega), show (2 ^ 64 - 1) % 128 = 127 from rfl]

theorem leading_lt (hv : v < 2 ^ 64) : Nat.ofDigitChars 16 (leading v) 0 < 2 ^ 64 := by
  have hlen : (leading v).length ≤ 16 :=
    le_trans (List.takeWhile_prefix _).length_le
      ((Nat.length_toDigits_le_iff (by decide) (by decide)).mpr hv)
  calc Nat.ofDigitChars 16 (leading v) 0 < 16 ^ (leading v).length * (0 + 1) :=
        ofDigitChars_lt (by decide) fun c hc => List.mem_takeWhile_imp hc
    _ ≤ 2 ^ 64 := by
        rw [Nat.zero_add, Nat.mul_one]
        exact Nat.pow_le_pow_right (by decide) hlen

theorem readsRight_sixteen (hv : v < 2 ^ 64) : ReadsRight 16 v ↔ leading v ≠ [] ∧
    v % 128 = min (Nat.ofDigitChars 16 (leading v) 0) (2 ^ 64 - 1) % 128 := by
  have hlt := leading_lt hv
  unfold ReadsRight
  rw [if_neg (by decide), min_eq_left (by omega)]

/-- Digits that are no letters stand for themselves. -/
theorem ofDigitChars_sixteen (h : ∀ c ∈ Nat.toDigits 16 n, c.isDigit = true) :
    Nat.ofDigitChars 16 (Nat.toDigits 16 n) 0 = n := by
  have hsmall : ∀ m < 16, (Nat.digitChar m).isDigit = true → m < 10 := by decide
  induction n using Nat.strongRecOn with
  | ind n ih =>
    by_cases hn : n < 16
    · rw [Nat.toDigits_of_lt_base hn] at h ⊢
      rw [Nat.ofDigitChars_cons_digitChar_of_lt_ten (hsmall n hn (h _ List.mem_cons_self)),
        Nat.ofDigitChars_nil, Nat.mul_zero, Nat.zero_add]
    · rw [Nat.toDigits_of_base_le (by decide) (Nat.le_of_not_lt hn)] at h ⊢
      have hlast := hsmall (n % 16) (Nat.mod_lt n (by decide))
        (h _ (List.mem_append_right _ List.mem_cons_self))
      rw [Nat.ofDigitChars_append, Nat.ofDigitChars_cons_digitChar_of_lt_ten hlast,
        Nat.ofDigitChars_nil, ih (n / 16) (by omega) fun c hc => h c (List.mem_append_left _ hc)]
      omega

theorem readsRight_noLetter (h : ∀ c ∈ Nat.toDigits 16 v, c.isDigit = true) : ReadsRight 16 v := by
  have hall : leading v = Nat.toDigits 16 v := List.takeWhile_eq_self_iff.mpr h
  unfold ReadsRight
  rw [if_neg (by decide), hall, ofDigitChars_sixteen h]
  exact ⟨Nat.toDigits_ne_nil, rfl⟩

theorem takeWhile_toDigits_ten : (Nat.toDigits 10 v).takeWhile Char.isDigit = Nat.toDigits 10 v :=
  List.takeWhile_eq_self_iff.mpr fun _ hc => isDigit_of_mem_toDigits hc

/-- The names are right for the flags whose low bits survive. -/
theorem typed_iff (hbase : base = 10 ∨ base = 16) (hv : v < 2 ^ 64) (hb : IsDigits b)
    (hone : occurrences "relocating block group ".toList
      (relocatingLine before b (Nat.toDigits base v) after) = [before.length])
    (hafter : ∀ c ∈ after.head?, c.isAlphanum = false) :
    Typed (relocatingLine before b (Nat.toDigits base v) after) b v ↔ ReadsRight base v := by
  rw [typed_line_iff hb hone hafter]
  rcases hbase with rfl | rfl
  · rw [takeWhile_toDigits_ten, and_iff_right Nat.toDigits_ne_nil, readsRight_ten]
    rfl
  · rw [readsRight_sixteen hv]
    rfl

theorem newline_ends : ∀ c ∈ ['\n'].head?, c.isAlphanum = false := by
  rintro _ ⟨⟩
  decide

theorem typed_iff_ten :
    Typed (relocatingLine "BTRFS: ".toList "12".toList (Nat.toDigits 10 10) ['\n']) "12".toList 10 ↔
      ReadsRight 10 10 :=
  typed_iff (.inl rfl) (by decide) (isDigits_of_all (by decide) (by decide)) (by decide)
    newline_ends

/-- The flags `10` are `SYS` and `RAID0`. In base ten they are taken for 16, which is `RAID1`, and in
base sixteen they are a letter, and nothing is printed. -/
theorem not_typed : ¬ ∃ base, (base = 10 ∨ base = 16) ∧ ∀ v < 2 ^ 64, ∀ b, IsDigits b →
    Typed (relocatingLine [] b (Nat.toDigits base v) ['\n']) b v := by
  rintro ⟨base, hbase, h⟩
  have hb : IsDigits "1".toList := isDigits_of_all (by decide) (by decide)
  have hten := h 10 (by decide) "1".toList hb
  rcases hbase with rfl | rfl
  · rw [typed_line_iff hb (by decide) newline_ends] at hten
    exact absurd hten.2 (by decide)
  · rw [typed_line_iff hb (by decide) newline_ends] at hten
    exact absurd hten.1 (by decide)

end

end BtrfsDecode
