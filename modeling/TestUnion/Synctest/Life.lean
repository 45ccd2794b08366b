import TestUnion.Synctest.Schedule

/-!
# synctest: the life of a file

* `life`            the calls about one file: it is created, renamed in every pass, and unlinked
                    under its last name;
* `filter_doChild`  these are the calls of a `do_child` that mention a name of the file;
* `Call.finds`      the name that a call needs is there, and the name that it makes is not;
* `held_finds`      so it is for every call of a `do_child`;
* `gains`, `Stays`  how many files some calls make, and a bound for it that is kept all the time;
* `card_held_le`    a child never has more than `unlinkLag + 1` files.
-/

namespace Synctest

variable {pid fileno k n m : ℕ} {c : Call} {calls : List Call} {x : Name} {names names' : Finset Name}

/-! ## one file -/

def fileNames (pid fileno : ℕ) : List Name :=
  mkFilename pid fileno :: (List.range renamePasses).map (mkNewFilename pid fileno)

/-- the call mentions a name of the file -/
def Call.about (pid fileno : ℕ) (c : Call) : Bool := c.mentions.any (fileNames pid fileno).contains

def life (pid fileno : ℕ) : List Call :=
  [.create (mkFilename pid fileno),
    .rename (mkFilename pid fileno) (mkNewFilename pid fileno 0),
    .rename (mkNewFilename pid fileno 0) (mkNewFilename pid fileno 1),
    .rename (mkNewFilename pid fileno 1) (mkNewFilename pid fileno 2),
    .unlink (mkNewFilename pid fileno 2)]

theorem doOneFile_unlink (pid fileno : ℕ) :
    doOneFile pid fileno ++ unlinkOneFile true pid fileno (renamePasses - 1) = life pid fileno := rfl

theorem mem_fileNames : x ∈ fileNames pid fileno ↔
    x = mkFilename pid fileno ∨ ∃ pass < renamePasses, mkNewFilename pid fileno pass = x := by
  unfold fileNames
  rw [List.mem_cons, List.mem_map]
  simp only [List.mem_range]

theorem fileNames_unique (h : x ∈ fileNames pid n) (h' : x ∈ fileNames pid m) : n = m := by
  rcases mem_fileNames.mp h with rfl | ⟨pass, _, rfl⟩ <;>
    rcases mem_fileNames.mp h' with heq | ⟨pass', _, heq⟩
  · exact (mkFilename_inj heq).2
  · exact absurd heq.symm mkFilename_ne
  · exact absurd heq.symm mkFilename_ne
  · exact (mkNewFilename_inj heq).2.1.symm

theorem life_mentions (hc : c ∈ life pid n) :
    c.mentions ≠ [] ∧ ∀ x ∈ c.mentions, x ∈ fileNames pid n := by
  have h (pass : ℕ) (hp : pass < renamePasses) : mkNewFilename pid n pass ∈ fileNames pid n :=
    mem_fileNames.mpr (.inr ⟨pass, hp, rfl⟩)
  have hfirst : mkFilename pid n ∈ fileNames pid n := mem_fileNames.mpr (.inl rfl)
  have h0 := h 0 (by decide)
  have h1 := h 1 (by decide)
  have h2 := h 2 (by decide)
  simp only [life, List.mem_cons, List.not_mem_nil, or_false] at hc
  rcases hc with rfl | rfl | rfl | rfl | rfl <;> simp [Call.mentions, hfirst, h0, h1, h2]

theorem about_iff : c.about pid n = true ↔ ∃ x ∈ c.mentions, x ∈ fileNames pid n := by
  unfold Call.about
  rw [List.any_eq_true]
  simp only [List.contains_iff_mem]

theorem about_life (hc : c ∈ life pid m) : c.about pid n = true ↔ m = n := by
  obtain ⟨hne, hall⟩ := life_mentions hc
  rw [about_iff]
  refine ⟨?_, ?_⟩
  · rintro ⟨x, hx, hn⟩
    exact fileNames_unique (hall x hx) hn
  · rintro rfl
    obtain ⟨x, hx⟩ := List.exists_mem_of_ne_nil _ hne
    exact ⟨x, hx, hall x hx⟩

/-! ## the calls of a `do_child` about one file -/

theorem filter_about (h : ∀ c ∈ calls, c ∈ life pid m) :
    calls.filter (Call.about pid n) = if m = n then calls else [] := by
  split
  · next heq => exact List.filter_eq_self.mpr fun c hc => (about_life (h c hc)).mpr heq
  · next hne => exact List.filter_eq_nil_iff.mpr fun c hc h' => hne ((about_life (h c hc)).mp h')

theorem doOneFile_sub : ∀ c ∈ doOneFile pid m, c ∈ life pid m := fun _ hc => by
  rw [← doOneFile_unlink]
  exact List.mem_append_left _ hc

theorem unlinkOneFile_sub : ∀ c ∈ unlinkOneFile true pid m (renamePasses - 1), c ∈ life pid m :=
  fun _ hc => by
    rw [← doOneFile_unlink]
    exact List.mem_append_right _ hc

theorem filter_fileRound : (fileRound true pid m).filter (Call.about pid n) =
    (if m = n then doOneFile pid n else []) ++
      if m = n + unlinkLag then unlinkOneFile true pid n (renamePasses - 1) else [] := by
  unfold fileRound
  rw [List.filter_append, filter_about doOneFile_sub]
  congr 1
  · split
    · next heq => rw [heq]
    · rfl
  · by_cases hlag : unlinkLag ≤ m
    · rw [if_pos hlag, filter_about unlinkOneFile_sub]
      by_cases heq : m = n + unlinkLag
      · have hn : m - unlinkLag = n := by omega
        rw [if_pos heq, if_pos hn, hn]
      · rw [if_neg heq, if_neg (by omega)]
    · rw [if_neg hlag, if_neg (by omega)]
      rfl

theorem filter_fileRounds (N : ℕ) :
    ((List.range N).flatMap (fileRound true pid)).filter (Call.about pid n) =
      (if n < N then doOneFile pid n else []) ++
        if n + unlinkLag < N then unlinkOneFile true pid n (renamePasses - 1) else [] := by
  have hlag : 0 < unlinkLag := by decide
  induction N with
  | zero => rfl
  | succ N ih =>
    rw [List.range_succ, List.flatMap_append, List.filter_append, ih, List.flatMap_singleton,
      filter_fileRound]
    rcases Nat.lt_trichotomy N n with hlt | rfl | hgt
    · -- the round is before both calls
      rw [if_neg (by omega), if_neg (by omega), if_neg (by omega), if_neg (by omega),
        if_neg (by omega), if_neg (by omega)]
      rfl
    · rw [if_neg (by omega), if_neg (by omega), if_pos rfl, if_neg (by omega), if_pos (by omega),
        if_neg (by omega)]
      rfl
    · rw [if_pos hgt, if_pos (show n < N + 1 by omega), if_neg (show ¬ N = n by omega),
        List.nil_append]
      by_cases heq : N = n + unlinkLag
      · rw [if_pos heq, if_neg (show ¬ n + unlinkLag < N by omega),
          if_pos (show n + unlinkLag < N + 1 by omega), List.append_nil]
      · rw [if_neg heq, List.append_nil]
        congr 1
        exact if_congr (by omega) rfl rfl

theorem filter_unlinks (lo k : ℕ) :
    ((List.range' lo k).flatMap fun fileno =>
      unlinkOneFile true pid fileno (renamePasses - 1)).filter (Call.about pid n) =
        if lo ≤ n ∧ n < lo + k then unlinkOneFile true pid n (renamePasses - 1) else [] := by
  induction k generalizing lo with
  | zero => rw [if_neg (by omega)]; rfl
  | succ k ih =>
    rw [List.range'_succ, List.flatMap_cons, List.filter_append, ih, filter_about unlinkOneFile_sub]
    by_cases heq : lo = n
    · rw [if_pos heq, if_neg (by omega), if_pos (by omega), heq, List.append_nil]
    · rw [if_neg heq, List.nil_append]
      exact if_congr (by omega) rfl rfl

theorem filter_doChild (hn : n < nFiles) :
    (doChild true pid).filter (Call.about pid n) = life pid n := by
  have hfiles : nFiles = nFiles - unlinkLag + unlinkLag := rfl
  unfold doChild
  rw [List.filter_cons_of_neg (show ¬ Call.about pid n .openDir = true from Bool.false_ne_true),
    List.filter_append, filter_fileRounds, filter_unlinks,
    if_pos hn, ← doOneFile_unlink]
  by_cases hlag : n + unlinkLag < nFiles
  · rw [if_pos hlag, if_neg (by omega), List.append_nil]
  · rw [if_neg hlag, if_pos (by omega), List.append_nil]

theorem mem_doChild (hc : c ∈ doChild true pid) : c = .openDir ∨ ∃ n < nFiles, c ∈ life pid n := by
  unfold doChild at hc
  rcases List.mem_cons.mp hc with rfl | hc
  · exact .inl rfl
  refine .inr ?_
  rcases List.mem_append.mp hc with hc | hc
  · obtain ⟨m, hm, hc⟩ := List.mem_flatMap.mp hc
    have hm := List.mem_range.mp hm
    unfold fileRound at hc
    rcases List.mem_append.mp hc with hc | hc
    · exact ⟨m, hm, doOneFile_sub c hc⟩
    · split at hc
      · exact ⟨m - unlinkLag, by omega, unlinkOneFile_sub c hc⟩
      · cases hc
  · obtain ⟨m, hm, hc⟩ := List.mem_flatMap.mp hc
    have hm := (List.mem_range'_1.mp hm).2
    have hfiles : nFiles - unlinkLag + unlinkLag = nFiles := rfl
    exact ⟨m, by omega, unlinkOneFile_sub c hc⟩

/-! ## each call finds its file -/

/-- The source of the call is there, and it takes no name away from another file. -/
def Call.finds (names : Finset Name) : Call → Prop
  | .openDir => True
  | .create name => name ∉ names
  | .rename name newname => name ∈ names ∧ newname ∉ names
  | .unlink name => name ∈ names

theorem Call.finds_congr (h : ∀ x ∈ c.mentions, x ∈ names ↔ x ∈ names') :
    c.finds names ↔ c.finds names' := by
  cases c with
  | openDir => exact Iff.rfl
  | create name => exact not_congr (h name (by simp [mentions]))
  | rename name newname =>
    exact and_congr (h name (by simp [mentions])) (not_congr (h newname (by simp [mentions])))
  | unlink name => exact h name (by simp [mentions])

theorem life_finds (hc : (life pid n)[m]? = some c) :
    c.finds (applyAll ((life pid n).take m) ∅) := by
  have hne (pass : ℕ) : mkNewFilename pid n pass ≠ mkFilename pid n := mkFilename_ne.symm
  have hpass (pass pass' : ℕ) (h : pass ≠ pass') :
      mkNewFilename pid n pass ≠ mkNewFilename pid n pass' :=
    fun heq => h (mkNewFilename_inj heq).2.2
  match m with
  | 0 =>
    cases hc
    simp [Call.finds, applyAll]
  | 1 =>
    cases hc
    simp [Call.finds, applyAll, life, Call.apply, hne]
  | 2 =>
    cases hc
    simp [Call.finds, applyAll, life, Call.apply, hpass 1 0]
  | 3 =>
    cases hc
    simp [Call.finds, applyAll, life, Call.apply, hpass 2 1]
  | 4 =>
    cases hc
    simp [Call.finds, applyAll, life, Call.apply]
  | m + 5 => cases hc

/-- What happens to the names of one file depends on the calls about it. -/
theorem mem_applyAll_filter (hx : x ∈ fileNames pid n) (h : x ∈ names ↔ x ∈ names') :
    x ∈ applyAll calls names ↔ x ∈ applyAll (calls.filter (Call.about pid n)) names' := by
  induction calls generalizing names names' with
  | nil => exact h
  | cons c calls ih =>
    by_cases hc : c.about pid n = true
    · rw [List.filter_cons_of_pos hc]
      exact ih (c.apply_mem_iff h)
    · rw [List.filter_cons_of_neg hc]
      apply ih
      rw [Call.apply_mem_other fun hmem => hc (about_iff.mpr ⟨x, hmem, hx⟩)]
      exact h

/-- The calls about a file that come before one of them. -/
theorem filter_take (hn : n < nFiles) (hc : (doChild true pid)[k]? = some c)
    (habout : c.about pid n = true) : ∃ m, (life pid n)[m]? = some c ∧
      ((doChild true pid).take k).filter (Call.about pid n) = (life pid n).take m := by
  have htake : (doChild true pid).take (k + 1) = (doChild true pid).take k ++ [c] := by
    rw [List.take_add_one, hc]
    rfl
  have hprefix := (List.take_prefix (k + 1) (doChild true pid)).filter (Call.about pid n)
  rw [htake, List.filter_append, List.filter_cons_of_pos habout, List.filter_nil,
    filter_doChild hn] at hprefix
  obtain ⟨rest, hrest⟩ := hprefix
  rw [List.append_assoc] at hrest
  refine ⟨(((doChild true pid).take k).filter (Call.about pid n)).length, ?_, ?_⟩
  · rw [← hrest, List.getElem?_append_right (Nat.le_refl _), Nat.sub_self]
    rfl
  · rw [← hrest, List.take_left']
    rfl

theorem held_finds (hc : (doChild true pid)[k]? = some c) : c.finds (held true pid k) := by
  rcases mem_doChild (List.mem_of_getElem? hc) with rfl | ⟨n, hn, hlife⟩
  · trivial
  · obtain ⟨m, hm, hfilter⟩ := filter_take hn hc ((about_life hlife).mpr rfl)
    refine (Call.finds_congr fun x hx => ?_).mpr (life_finds hm)
    unfold held
    rw [← hfilter]
    exact mem_applyAll_filter ((life_mentions hlife).2 x hx) Iff.rfl

/-! ## the number of files -/

def Call.gain : Call → ℤ
  | .create _ => 1
  | .unlink _ => -1
  | _ => 0

theorem Call.card_apply (h : c.finds names) : ((c.apply names).card : ℤ) = names.card + c.gain := by
  cases c with
  | openDir => exact (add_zero _).symm
  | create name =>
    show ((insert name names).card : ℤ) = names.card + 1
    rw [Finset.card_insert_of_notMem h]
    push_cast
    rfl
  | rename name newname =>
    obtain ⟨hname, hnew⟩ := h
    show ((insert newname (names.erase name)).card : ℤ) = names.card + 0
    rw [Finset.card_insert_of_notMem fun hmem => hnew (Finset.mem_of_mem_erase hmem),
      Finset.card_erase_add_one hname, add_zero]
  | unlink name =>
    show ((names.erase name).card : ℤ) = names.card + -1
    have hcard := Finset.card_erase_add_one h
    omega

def gains : List Call → ℤ
  | [] => 0
  | c :: calls => c.gain + gains calls

theorem gains_append (calls calls' : List Call) :
    gains (calls ++ calls') = gains calls + gains calls' := by
  induction calls with
  | nil => exact (zero_add _).symm
  | cons c calls ih =>
    show c.gain + gains (calls ++ calls') = c.gain + gains calls + gains calls'
    rw [ih, add_assoc]

theorem card_held (hk : k ≤ (doChild true pid).length) :
    ((held true pid k).card : ℤ) = gains ((doChild true pid).take k) := by
  induction k with
  | zero =>
    rw [held_zero]
    rfl
  | succ k ih =>
    have hc := List.getElem?_eq_getElem hk
    rw [held_succ hc, Call.card_apply (held_finds hc), ih (by omega), List.take_add_one, hc,
      gains_append]
    congr 1
    exact (add_zero _).symm

/-- at no point do the calls make more than `b` files -/
def Stays (b : ℤ) (calls : List Call) : Prop := ∀ k, gains (calls.take k) ≤ b

theorem Stays.append {b b' : ℤ} {calls' : List Call} (h : Stays b calls) (h' : Stays b' calls')
    (hb : gains calls + b' ≤ b) : Stays b (calls ++ calls') := by
  intro k
  rw [List.take_append, gains_append]
  by_cases hk : k ≤ calls.length
  · rw [Nat.sub_eq_zero_of_le hk, List.take_zero]
    have := h k
    have h0 : gains [] = 0 := rfl
    omega
  · rw [List.take_of_length_le (by omega)]
    have := h' (k - calls.length)
    omega

theorem Stays.cons {b b' : ℤ} (h : Stays b' calls) (h0 : 0 ≤ b) (hb : c.gain + b' ≤ b) :
    Stays b (c :: calls) := by
  intro k
  cases k with
  | zero => exact h0
  | succ k =>
    have := h k
    show c.gain + gains (calls.take k) ≤ b
    omega

theorem stays_nil : Stays 0 [] := by
  intro k
  rw [List.take_nil]
  rfl

theorem stays_rename {name newname : Name} (h : Stays 0 calls) :
    Stays 0 (.rename name newname :: calls) := h.cons (le_refl 0) (le_refl 0)

theorem stays_doOneFile : Stays 1 (doOneFile pid n) :=
  (stays_rename (stays_rename (stays_rename stays_nil))).cons zero_le_one (le_refl 1)

theorem stays_unlinkOneFile : Stays 0 (unlinkOneFile true pid n (renamePasses - 1)) :=
  stays_nil.cons (le_refl 0) (by show (-1 : ℤ) + 0 ≤ 0; omega)

theorem stays_fileRound : Stays 1 (fileRound true pid n) := by
  unfold fileRound
  split
  · exact stays_doOneFile.append stays_unlinkOneFile (le_refl 1)
  · exact stays_doOneFile.append stays_nil (le_refl 1)

theorem gains_fileRound :
    gains (fileRound true pid n) = if unlinkLag ≤ n then 0 else 1 := by
  unfold fileRound
  split <;> rfl

theorem gains_fileRounds (N : ℕ) :
    gains ((List.range N).flatMap (fileRound true pid)) = min N unlinkLag := by
  induction N with
  | zero => rfl
  | succ N ih =>
    rw [List.range_succ, List.flatMap_append, gains_append, ih, List.flatMap_singleton,
      gains_fileRound]
    split <;> omega

/-- The first loop has one file more than `unlinkLag` before each unlink. -/
theorem stays_fileRounds (N : ℕ) :
    Stays (unlinkLag + 1) ((List.range N).flatMap (fileRound true pid)) := by
  induction N with
  | zero =>
    intro k
    show gains (List.take k []) ≤ unlinkLag + 1
    rw [List.take_nil]
    decide
  | succ N ih =>
    rw [List.range_succ, List.flatMap_append, List.flatMap_singleton]
    apply ih.append stays_fileRound
    rw [gains_fileRounds]
    omega

theorem stays_unlinks (lo k : ℕ) : Stays 0 ((List.range' lo k).flatMap fun fileno =>
    unlinkOneFile true pid fileno (renamePasses - 1)) := by
  induction k generalizing lo with
  | zero => exact stays_nil
  | succ k ih =>
    rw [List.range'_succ, List.flatMap_cons]
    apply stays_unlinkOneFile.append (ih (lo + 1))
    show (-1 : ℤ) + 0 ≤ 0
    omega

theorem stays_doChild : Stays (unlinkLag + 1) (doChild true pid) := by
  unfold doChild
  refine Stays.cons ((stays_fileRounds nFiles).append (stays_unlinks _ _) ?_) (by decide)
    (le_of_eq (zero_add _))
  rw [gains_fileRounds]
  omega

theorem card_held_le (pid k : ℕ) : (held true pid k).card ≤ unlinkLag + 1 := by
  by_cases hk : k ≤ (doChild true pid).length
  · have h : gains ((doChild true pid).take k) ≤ unlinkLag + 1 := stays_doChild k
    rw [← card_held hk] at h
    exact_mod_cast h
  · have hall : held true pid k = held true pid (doChild true pid).length := by
      unfold held
      rw [List.take_of_length_le (by omega), List.take_length]
    rw [hall, held_length]
    exact Nat.zero_le _

end Synctest
