import TestUnion.Fiemap.EndToEnd
import TestUnion.Fiemap.Main

/-!
# fiemap-test: the rounds of a whole run

* `Machine`         what `main` takes from outside, round by round; a FIEMAP reply may depend on the file;
* `Exit`, `Prog`    how `main` ends, and the state at the top of its loop, with the comparisons so far;
* `start`, `turn`   `main` up to the loop, and one pass through the loop with its condition;
* `Dependable`      calls that keep their word and allocations that succeed;
* `drawn`           the maps that the first rounds draw;
* `rounds_pass`     on a faithful file system exactly the drawn maps are tested, as many as `-r` says;
* `rounds_decide`   whatever FIEMAP replies, the run stops at the first comparison with a wrong reply.
-/

namespace Fiemap

open CInt

structure Machine (σ : Type) where
  calls : Calls σ
  /-- `ftruncate(fd, 0)` -/
  ftruncate : σ → Option σ
  /-- `lseek(fd, 0, SEEK_SET)` -/
  lseekSet : σ → Option σ
  random : ℕ → ℕ
  randomTypes : ℕ → ℕ → ℕ
  mallocMap : ℕ → Bool
  mallocBuf : ℕ → Bool
  kernel : ℕ → σ → Kernel

inductive Exit where
  | success
  | usage
  /-- a division by 0 -/
  | trap
  | noMap
  | noFile
  | differs
  | noTruncate
  | noSeek
  deriving DecidableEq

/-- a call of `compare_fiemap_and_map` -/
structure Compared (σ : Type) where
  round : ℕ
  map : List Char
  file : σ

structure Prog (σ : Type) where
  exit : Option Exit
  round : ℕ
  map : Option (List Char)
  prealloc : Bool
  runs : Int32
  file : σ
  compared : List (Compared σ)

section
variable {σ : Type} (M : Machine σ) (blocksize : Int32)

/-- `map` and `runs` are the arguments of `-m` and of `-r`, which is -1 when it is not given. -/
def start (prealloc : Bool) (map : Option (List Char)) (runs : Int32) (s : σ) : Prog σ :=
  if runs ≠ -1 ∧ map.isSome = true then ⟨some .usage, 0, map, prealloc, runs, s, []⟩
  else
    let (ret, s) := if prealloc = true then M.calls.fallocate s 0 blocksize else (-1, s)
    let p : Prog σ := ⟨none, 0, map, ret = 0, if map.isSome = true then 0 else runs, s, []⟩
    match M.ftruncate s with
    | none => { p with exit := some .noTruncate }
    | some s => { p with file := s }

/-- the condition of the loop -/
def Prog.again (p : Prog σ) (runs : Int32) : Prog σ :=
  { p with
    exit := if runs ≠ 0 then none else some .success
    round := p.round + 1
    map := none
    runs := runs }

/-- the map has been written, and is compared -/
def Prog.written (p : Prog σ) (map : List Char) (s : σ) : Prog σ :=
  { p with file := s, compared := p.compared ++ [⟨p.round, map, s⟩] }

/-- the part of a round that has a map -/
def test (p : Prog σ) (map : List Char) : Prog σ :=
  match createFileFromMapping M.calls blocksize (M.mallocBuf p.round) map p.file with
  | (.error _, s) => { p with exit := some .noFile, file := s }
  | (.ok (), s) =>
    -- `random() % blocks`
    if map = [] then { p with exit := some .trap, file := s }
    else
      let p := p.written map s
      if (compareFiemapAndMap (M.kernel p.round s) map blocksize).ret ≠ some 0 then
        { p with exit := some .differs }
      else
        match M.ftruncate s with
        | none => { p with exit := some .noTruncate }
        | some s =>
          match M.lseekSet s with
          | none => { p with exit := some .noSeek, file := s }
          | some s =>
            { p with file := s }.again (if p.runs ≠ 0 then p.runs - 1 else p.runs)

def turn (p : Prog σ) : Prog σ :=
  match p.exit, p.map with
  | some _, _ => p
  | none, some map => test M blocksize p map
  | none, none =>
    if maxBlocks blocksize = 0 then { p with exit := some .trap }
    else
      let blocks := M.random p.round % maxBlocks blocksize
      -- `continue` goes to the condition, and `runs` stays
      if blocks = 0 then p.again p.runs
      else if M.mallocMap p.round = true then
        test M blocksize p (generateFileMapping (M.randomTypes p.round) blocks p.prealloc)
      else { p with exit := some .noMap }

def turns (p : Prog σ) : ℕ → Prog σ
  | 0 => p
  | n + 1 => turn M blocksize (turns p n)

/-- the maps of the rounds before round `n` that have one -/
def drawn (prealloc : Bool) (n : ℕ) : List (List Char) :=
  (List.range n).filterMap fun r =>
    let blocks := M.random r % maxBlocks blocksize
    if blocks = 0 then none else some (generateFileMapping (M.randomTypes r) blocks prealloc)

/-- The calls are those of a faithful file system, and so are `ftruncate` and `lseek` between the
rounds; FIEMAP may reply anything. -/
structure Dependable (k : ℕ) extends Faithful M.calls blocksize k where
  ftruncate : ∀ s, ∃ s', M.ftruncate s = some s' ∧ pos s' = pos s ∧ ∀ i, block s' i = .hole
  lseekSet : ∀ s, ∃ s', M.lseekSet s = some s' ∧ pos s' = 0 ∧ block s' = block s
  mallocMap : ∀ r, M.mallocMap r = true
  mallocBuf : ∀ r, M.mallocBuf r = true
  malloc : ∀ r s, (M.kernel r s).malloc = true

/-- the kernel during the comparison -/
def Compared.kernel (c : Compared σ) : Kernel := M.kernel c.round c.file

/-- FIEMAP is called for every window of the map, and every reply is a right one. -/
def Compared.Right (k : ℕ) (c : Compared σ) : Prop :=
  ∀ w, w * (c.kernel M).blocksToMap c.map < c.map.length →
    ∃ reply, (c.kernel M).ioctl w (requestOf (c.kernel M) c.map blocksize w) = some reply ∧
      RightReply (c.kernel M) c.map blocksize k w reply

/-- The replies have sorted extents of whole blocks. -/
def Compared.InBlocks (k : ℕ) (c : Compared σ) : Prop :=
  ∀ w reply, w * (c.kernel M).blocksToMap c.map < c.map.length →
    (c.kernel M).ioctl w (requestOf (c.kernel M) c.map blocksize w) = some reply → Aligned k reply

def Compared.Passed (c : Compared σ) : Prop :=
  (compareFiemapAndMap (c.kernel M) c.map blocksize).ret = some 0

end

section
variable {σ : Type} {M : Machine σ} {blocksize : Int32} {k : ℕ} {p : Prog σ} {map : List Char}
  {c : Compared σ} {prealloc : Bool} {runs : Int32} {s : σ}

/-- a map that `main` may be given, or makes -/
structure Testable (k : ℕ) (map : List Char) : Prop where
  ne : map ≠ []
  entry : ∀ m ∈ map, m = 'D' ∨ m = 'H' ∨ m = 'P'
  fits : map.length * 2 ^ k < 2 ^ 31

theorem Testable.pos (h : Testable k map) : 0 < map.length := List.length_pos_of_ne_nil h.ne

/-! ## the maps -/

theorem mapEntry_entry (n : ℕ) : mapEntry n = 'D' ∨ mapEntry n = 'H' ∨ mapEntry n = 'P' := by
  unfold mapEntry
  split <;> simp

theorem length_generate (random : ℕ → ℕ) (blocks : ℕ) (prealloc : Bool) :
    (generateFileMapping random blocks prealloc).length = blocks := by
  unfold generateFileMapping
  rw [List.length_map, List.length_range]

theorem testable_generate (hbs : blocksize.toInt = ((2 ^ k : ℕ) : ℤ)) {random : ℕ → ℕ} {blocks : ℕ}
    (h0 : blocks ≠ 0) (hlt : blocks < maxBlocks blocksize) :
    Testable k (generateFileMapping random blocks prealloc) := by
  have hlen := length_generate random blocks prealloc
  refine ⟨?_, ?_, ?_⟩
  · exact List.ne_nil_of_length_pos (by omega)
  · intro m hm
    obtain ⟨i, -, rfl⟩ := List.mem_map.mp hm
    exact mapEntry_entry _
  · have hmax : maxBlocks blocksize * 2 ^ k ≤ 2 * 1024 * 1024 := by
      unfold maxBlocks
      rw [hbs]
      exact Nat.div_mul_le_self _ _
    have hle := Nat.mul_le_mul_right (2 ^ k) (Nat.le_of_lt hlt)
    rw [hlen]
    omega

theorem maxBlocks_pos (hbs : blocksize.toInt = ((2 ^ k : ℕ) : ℤ)) (hk : k ≤ 21) :
    0 < maxBlocks blocksize := by
  have hle : 2 ^ k ≤ 2 ^ 21 := Nat.pow_le_pow_right (by omega) hk
  unfold maxBlocks
  rw [hbs]
  exact Nat.div_pos (by rw [Int.toNat_natCast]; omega) (Nat.two_pow_pos k)

theorem drawn_succ (M : Machine σ) (blocksize : Int32) (prealloc : Bool) (n : ℕ) : drawn M blocksize prealloc (n + 1) = drawn M blocksize prealloc n ++
    if M.random n % maxBlocks blocksize = 0 then []
    else [generateFileMapping (M.randomTypes n) (M.random n % maxBlocks blocksize) prealloc] := by
  unfold drawn
  rw [List.range_succ, List.filterMap_append]
  split <;> simp [*]

/-! ## one round -/

/-- the file is empty, and the next byte is the first one -/
def Rewound (D : Dependable M blocksize k) (p : Prog σ) : Prop :=
  D.pos p.file = 0 ∧ ∀ i, D.block p.file i = .hole

/-- A test writes the file, and then goes on or stops, as the comparison says. -/
theorem test_cases (D : Dependable M blocksize k) (hbs : blocksize.toInt = ((2 ^ k : ℕ) : ℤ))
    (hp : Rewound D p) (hmap : Testable k map) :
    ∃ s, D.block s = mapState map ∧
      ((Compared.Passed M blocksize ⟨p.round, map, s⟩ ∧
          ∃ s', (D.pos s' = 0 ∧ ∀ i, D.block s' i = .hole) ∧
            test M blocksize p map =
              { p.written map s with file := s' }.again
                (if p.runs ≠ 0 then p.runs - 1 else p.runs)) ∨
        (¬ Compared.Passed M blocksize ⟨p.round, map, s⟩ ∧
          test M blocksize p map = { p.written map s with exit := some .differs })) := by
  obtain ⟨s, hs, hblock⟩ := createFileFromMapping_spec D.toFaithful hbs map hmap.entry hmap.fits
    hp.1 hp.2
  refine ⟨s, hblock, ?_⟩
  unfold test
  rw [D.mallocBuf, hs]
  simp only [if_neg hmap.ne]
  by_cases hret : (compareFiemapAndMap (M.kernel p.round s) map blocksize).ret = some 0
  · left
    obtain ⟨s1, hs1, -, hholes⟩ := D.ftruncate s
    obtain ⟨s2, hs2, hpos, hsame⟩ := D.lseekSet s1
    refine ⟨hret, s2, ⟨hpos, fun i => by rw [hsame]; exact hholes i⟩, ?_⟩
    have hround : (p.written map s).round = p.round := rfl
    simp only [hround, hret, ne_eq, not_true_eq_false, if_false, hs1, hs2]
    rfl
  · right
    exact ⟨hret, if_pos hret⟩

theorem turn_of_exit {e : Exit} (h : p.exit = some e) : turn M blocksize p = p := by
  unfold turn
  rw [h]

/-- A round without an end takes a map, or skips. -/
theorem turn_cases (D : Dependable M blocksize k) (hmax : 0 < maxBlocks blocksize)
    (hexit : p.exit = none) :
    (∃ map, p.map = some map ∧ turn M blocksize p = test M blocksize p map) ∨
    (p.map = none ∧ M.random p.round % maxBlocks blocksize = 0 ∧
      turn M blocksize p = p.again p.runs) ∨
    (p.map = none ∧ M.random p.round % maxBlocks blocksize ≠ 0 ∧
      turn M blocksize p = test M blocksize p (generateFileMapping (M.randomTypes p.round)
        (M.random p.round % maxBlocks blocksize) p.prealloc)) := by
  unfold turn
  rw [hexit]
  cases p.map with
  | some map => exact .inl ⟨map, rfl, rfl⟩
  | none =>
    right
    simp only [if_neg hmax.ne', true_and]
    by_cases hzero : M.random p.round % maxBlocks blocksize = 0
    · exact .inl ⟨hzero, if_pos hzero⟩
    · refine .inr ⟨hzero, ?_⟩
      rw [if_neg hzero, if_pos (D.mallocMap _)]

/-! ## all rounds -/

/-- Only the comparison can fail, and it fails in the last round. -/
structure Sound (D : Dependable M blocksize k) (p : Prog σ) : Prop where
  ends : p.exit = none ∨ p.exit = some .success ∨ p.exit = some .differs
  rewound : p.exit ≠ some .differs → Rewound D p
  map : p.exit = none → ∀ map, p.map = some map → Testable k map
  files : ∀ c ∈ p.compared, Testable k c.map ∧ D.block c.file = mapState c.map
  passed : p.exit ≠ some .differs → ∀ c ∈ p.compared, c.Passed M blocksize
  failed : p.exit = some .differs → ∃ cs c, p.compared = cs ++ [c] ∧
    (∀ x ∈ cs, x.Passed M blocksize) ∧ ¬ c.Passed M blocksize

theorem again_exit (p : Prog σ) (runs : Int32) :
    (p.again runs).exit = none ∨ (p.again runs).exit = some .success := by
  by_cases h : runs ≠ 0
  · exact .inl (if_pos h)
  · exact .inr (if_neg h)

theorem again_ne (p : Prog σ) (runs : Int32) : (p.again runs).exit ≠ some .differs := by
  intro h
  rcases again_exit p runs with hnone | hsome
  · rw [hnone] at h
    cases h
  · rw [hsome] at h
    cases h

theorem Sound.again {D : Dependable M blocksize k} (hrewound : Rewound D p)
    (hfiles : ∀ c ∈ p.compared, Testable k c.map ∧ D.block c.file = mapState c.map)
    (hpassed : ∀ c ∈ p.compared, c.Passed M blocksize) (runs : Int32) :
    Sound D (p.again runs) where
  ends := (again_exit p runs).imp_right .inl
  rewound _ := hrewound
  map _ _ h := by cases h
  files := hfiles
  passed _ := hpassed
  failed h := absurd h (again_ne p runs)

theorem Sound.test {D : Dependable M blocksize k} (hbs : blocksize.toInt = ((2 ^ k : ℕ) : ℤ))
    (h : Sound D p) (hexit : p.exit = none) (hmap : Testable k map) :
    Sound D (test M blocksize p map) := by
  have hgoes : p.exit ≠ some .differs := by
    rw [hexit]
    exact nofun
  obtain ⟨s, hblock, hcases⟩ := test_cases D hbs (h.rewound hgoes) hmap
  have hfiles : ∀ c ∈ (p.written map s).compared,
      Testable k c.map ∧ D.block c.file = mapState c.map :=
    List.forall_mem_append.mpr ⟨h.files, List.forall_mem_singleton.mpr ⟨hmap, hblock⟩⟩
  rcases hcases with ⟨hpass, s', hrewound, heq⟩ | ⟨hfail, heq⟩
  · have hnext : Rewound D { p.written map s with file := s' } := hrewound
    rw [heq]
    exact Sound.again hnext hfiles
      (List.forall_mem_append.mpr ⟨h.passed hgoes, List.forall_mem_singleton.mpr hpass⟩) _
  · rw [heq]
    exact {
      ends := .inr (.inr rfl)
      rewound := fun hne => absurd rfl hne
      map := fun hnone => by cases hnone
      files := hfiles
      passed := fun hne => absurd rfl hne
      failed := fun _ => ⟨p.compared, _, rfl, h.passed hgoes, hfail⟩ }

theorem Sound.turn {D : Dependable M blocksize k} (hbs : blocksize.toInt = ((2 ^ k : ℕ) : ℤ))
    (hk : k ≤ 21) (h : Sound D p) : Sound D (turn M blocksize p) := by
  have hmax := maxBlocks_pos hbs hk
  cases hexit : p.exit with
  | some e =>
    rw [turn_of_exit hexit]
    exact h
  | none =>
    have hgoes : p.exit ≠ some .differs := by
      rw [hexit]
      exact nofun
    rcases turn_cases D hmax hexit with ⟨map, hmap, heq⟩ | ⟨-, -, heq⟩ | ⟨-, hne, heq⟩
    · rw [heq]
      exact h.test hbs hexit (h.map hexit map hmap)
    · rw [heq]
      exact Sound.again (h.rewound hgoes) h.files (h.passed hgoes) _
    · rw [heq]
      exact h.test hbs hexit (testable_generate hbs hne (Nat.mod_lt _ hmax))

theorem start_eq (arg : Option (List Char)) (prealloc : Bool) (D : Dependable M blocksize k)
    (hbs : blocksize.toInt = ((2 ^ k : ℕ) : ℤ)) (harg : arg.isSome = true → runs = -1)
    (hpos : D.pos s = 0) :
    ∃ s', (D.pos s' = 0 ∧ ∀ i, D.block s' i = .hole) ∧
      start M blocksize prealloc arg runs s =
        ⟨none, 0, arg, prealloc, if arg.isSome = true then 0 else runs, s', []⟩ := by
  have hblock : (0 + 1) * 2 ^ k < 2 ^ 31 := by
    have := blocksize.toInt_lt
    omega
  have husage : ¬ (runs ≠ -1 ∧ arg.isSome = true) := fun h => h.1 (harg h.2)
  unfold start
  rw [if_neg husage]
  cases prealloc with
  | false =>
    obtain ⟨s', hs', hpos', hholes⟩ := D.ftruncate s
    refine ⟨s', ⟨hpos'.trans hpos, hholes⟩, ?_⟩
    simp only [Bool.false_eq_true, if_false, hs']
    rfl
  | true =>
    obtain ⟨s1, hs1, hpos1, -⟩ := D.fallocate s 0 hblock
    obtain ⟨s', hs', hpos', hholes⟩ := D.ftruncate s1
    rw [Nat.zero_mul] at hs1
    have hcall : M.calls.fallocate s 0 blocksize = (0, s1) := hs1
    refine ⟨s', ⟨hpos'.trans (hpos1.trans hpos), hholes⟩, ?_⟩
    simp only [if_true, hcall, hs']
    rfl

theorem sound_turns {arg : Option (List Char)} (prealloc : Bool) (D : Dependable M blocksize k)
    (hbs : blocksize.toInt = ((2 ^ k : ℕ) : ℤ)) (hk : k ≤ 21)
    (harg : ∀ map, arg = some map → Testable k map ∧ runs = -1) (hpos : D.pos s = 0) (n : ℕ) :
    Sound D (turns M blocksize (start M blocksize prealloc arg runs s) n) := by
  induction n with
  | zero =>
    have hruns : arg.isSome = true → runs = -1 := by
      intro h
      obtain ⟨map, hmap⟩ := Option.isSome_iff_exists.mp h
      exact (harg map hmap).2
    obtain ⟨s', hrewound, heq⟩ := start_eq arg prealloc D hbs hruns hpos
    show Sound D (start M blocksize prealloc arg runs s)
    rw [heq]
    exact {
      ends := .inl rfl
      rewound := fun _ => hrewound
      map := fun _ map h => (harg map h).1
      files := List.forall_mem_nil _
      passed := fun _ => List.forall_mem_nil _
      failed := fun h => by cases h }
  | succ n ih => exact ih.turn hbs hk

/-! ## what a wrong reply does -/

theorem passed_iff (D : Dependable M blocksize k) (hbs : blocksize.toInt = ((2 ^ k : ℕ) : ℤ))
    (hmap : Testable k c.map) (hal : c.InBlocks M blocksize k) :
    c.Passed M blocksize ↔ c.Right M blocksize k := by
  have hfit (i : ℕ) (hi : i < c.map.length) : i * 2 ^ k < 2 ^ 31 :=
    lt_of_le_of_lt (Nat.mul_le_mul_right _ (Nat.le_of_lt hi)) hmap.fits
  have hmalloc : (c.kernel M).malloc = true := D.malloc _ _
  unfold Compared.Passed Compared.Right
  rw [compare_ret_iff hmalloc hmap.pos]
  refine ⟨?_, ?_⟩
  · intro h w hw
    obtain ⟨reply, hio, hok⟩ := h w hw
    exact ⟨reply, hio, (windowOk_iff hbs hmap.entry hfit hio (hal w reply hw hio)).mp ⟨reply, hio, hok⟩⟩
  · intro h w hw
    obtain ⟨reply, hio, hright⟩ := h w hw
    exact (windowOk_iff hbs hmap.entry hfit hio (hal w reply hw hio)).mpr hright

/-- The program stops at the first comparison in which a call fails or a reply is wrong, with the
message for it, and at no other one. -/
theorem rounds_decide {arg : Option (List Char)} (D : Dependable M blocksize k)
    (hbs : blocksize.toInt = ((2 ^ k : ℕ) : ℤ)) (hk : k ≤ 21)
    (harg : ∀ map, arg = some map → Testable k map ∧ runs = -1) (hpos : D.pos s = 0) {n : ℕ}
    (hn : turns M blocksize (start M blocksize prealloc arg runs s) n = p)
    (hal : ∀ c ∈ p.compared, c.InBlocks M blocksize k) :
    (p.exit = none ∨ p.exit = some .success ∨ p.exit = some .differs) ∧
    (p.exit ≠ some .differs → ∀ c ∈ p.compared, c.Right M blocksize k) ∧
    (p.exit = some .differs → ∃ cs c, p.compared = cs ++ [c] ∧
      (∀ x ∈ cs, x.Right M blocksize k) ∧ ¬ c.Right M blocksize k) := by
  have h : Sound D p := by
    rw [← hn]
    exact sound_turns prealloc D hbs hk harg hpos n
  have hiff : ∀ c ∈ p.compared, (c.Passed M blocksize ↔ c.Right M blocksize k) :=
    fun c hc => passed_iff D hbs (h.files c hc).1 (hal c hc)
  refine ⟨h.ends, fun hne c hc => (hiff c hc).mp (h.passed hne c hc), ?_⟩
  intro hdiffers
  obtain ⟨cs, c, heq, hpass, hfail⟩ := h.failed hdiffers
  rw [heq, List.forall_mem_append, List.forall_mem_singleton] at hiff
  exact ⟨cs, c, heq, fun x hx => (hiff.1 x hx).mp (hpass x hx), fun hr => hfail (hiff.2.mpr hr)⟩

/-! ## a faithful file system -/

theorem passed_of_faithful (D : Dependable M blocksize k)
    (hbs : blocksize.toInt = ((2 ^ k : ℕ) : ℤ)) (hmap : Testable k c.map)
    (hfile : D.block c.file = mapState c.map)
    (hio : FaithfulIoctl (D.block c.file) k (c.kernel M).ioctl) : c.Passed M blocksize := by
  rw [hfile] at hio
  have hreply {w : ℕ} (hw : w * (c.kernel M).blocksToMap c.map < c.map.length) :=
    faithful_window (K := c.kernel M) hbs hmap.pos hmap.fits hio hw
  have hlt : c.map.length * 2 ^ k < 2 ^ 64 := lt_trans hmap.fits (by decide)
  have hal : c.InBlocks M blocksize k := by
    intro w reply hw hr
    obtain ⟨reply', hr', hf⟩ := hreply hw
    obtain rfl : reply = reply' := Option.some.inj (hr.symm.trans hr')
    exact hf.aligned (Nat.lt_add_of_pos_right blocksToMap_pos) (fun i hi => mapState_of_le hi) hlt
  rw [passed_iff D hbs hmap hal]
  intro w hw
  obtain ⟨reply, hr, hf⟩ := hreply hw
  exact ⟨reply, hr, rightReply_of_faithful hf⟩

/-- The loop goes on after `n` rounds. -/
structure Going (M : Machine σ) (blocksize : Int32) (prealloc : Bool) (runs : Int32) (n : ℕ)
    (p : Prog σ) : Prop where
  exit : p.exit = none
  map : p.map = none
  round : p.round = n
  asked : p.prealloc = prealloc
  compared : p.compared.map Compared.map = drawn M blocksize prealloc n
  count : p.runs.toInt = runs.toInt - (drawn M blocksize prealloc n).length
  left : 0 < runs.toInt → (drawn M blocksize prealloc n).length < runs.toInt

structure Done (M : Machine σ) (blocksize : Int32) (prealloc : Bool) (runs : Int32) (n : ℕ)
    (p : Prog σ) : Prop where
  exit : p.exit = some .success
  compared : p.compared.map Compared.map = (drawn M blocksize prealloc n).take runs.toInt.toNat
  pos : 0 < runs.toInt
  all : runs.toInt ≤ (drawn M blocksize prealloc n).length

theorem Done.turn {n : ℕ} (h : Done M blocksize prealloc runs n p) :
    Done M blocksize prealloc runs (n + 1) (turn M blocksize p) := by
  have hpos := h.pos
  have hall := h.all
  rw [turn_of_exit h.exit]
  refine ⟨h.exit, ?_, hpos, ?_⟩
  · rw [h.compared, drawn_succ, List.take_append_of_le_length (by omega)]
  · rw [drawn_succ, List.length_append]
    omega

/-- `runs` becomes 0 with the last of the tests that were asked for. -/
theorem Going.turn {n : ℕ} (D : Dependable M blocksize k)
    (hbs : blocksize.toInt = ((2 ^ k : ℕ) : ℤ)) (hk : k ≤ 21) (hruns : runs.toInt ≠ 0)
    (h : Going M blocksize prealloc runs n p) (hsound : Sound D p)
    (hpass : (turn M blocksize p).exit ≠ some .differs)
    (hfew : runs.toInt < 0 → (drawn M blocksize prealloc (n + 1)).length ≤ 2 ^ 31 + runs.toInt) :
    Going M blocksize prealloc runs (n + 1) (turn M blocksize p) ∨
      Done M blocksize prealloc runs (n + 1) (turn M blocksize p) := by
  have hmax := maxBlocks_pos hbs hk
  have hleft := h.left
  have hpruns := h.count
  have hne : p.runs ≠ 0 := by
    intro hz
    rw [hz] at hpruns
    have hzero : (0 : Int32).toInt = 0 := rfl
    omega
  rcases turn_cases D hmax h.exit with ⟨map, hmap, -⟩ | ⟨-, hskip, heq⟩ | ⟨-, hdraw, heq⟩
  · rw [h.map] at hmap
    cases hmap
  · left
    rw [h.round] at hskip
    have hdrawn : drawn M blocksize prealloc (n + 1) = drawn M blocksize prealloc n := by
      rw [drawn_succ, if_pos hskip, List.append_nil]
    rw [heq]
    exact {
      exit := if_pos hne
      map := rfl
      round := congrArg (· + 1) h.round
      asked := h.asked
      compared := by rw [hdrawn]; exact h.compared
      count := by rw [hdrawn]; exact h.count
      left := by rw [hdrawn]; exact h.left }
  · have hgoes : p.exit ≠ some .differs := by
      rw [h.exit]
      exact nofun
    obtain ⟨s, -, hcases⟩ := test_cases D hbs (hsound.rewound hgoes)
      (testable_generate hbs hdraw (Nat.mod_lt _ hmax))
    rcases hcases with ⟨-, s', -, htest⟩ | ⟨-, htest⟩
    · rw [heq, htest, h.asked, h.round, if_pos hne]
      rw [h.round] at hdraw
      have hdrawn := drawn_succ M blocksize prealloc n
      rw [if_neg hdraw] at hdrawn
      have hlen : (drawn M blocksize prealloc (n + 1)).length =
          (drawn M blocksize prealloc n).length + 1 := by
        rw [hdrawn, List.length_append, List.length_singleton]
      have hcompared {map : List Char} (s : σ) :
          (p.written map s).compared.map Compared.map = drawn M blocksize prealloc n ++ [map] := by
        rw [← h.compared]
        exact List.map_append
      have hless : (p.runs - 1).toInt = runs.toInt - (drawn M blocksize prealloc (n + 1)).length := by
        have hone : (1 : Int32).toInt = 1 := rfl
        have hup := runs.toInt_lt
        rw [Int32.toInt_sub, hone, hpruns, Int.bmod_eq_of_le (by omega) (by omega)]
        omega
      by_cases hlast : p.runs - 1 ≠ 0
      · left
        exact {
          exit := if_pos hlast
          map := rfl
          round := congrArg (· + 1) h.round
          asked := h.asked
          compared := by rw [hdrawn]; exact hcompared s
          count := hless
          left := by
            intro hpos
            have hleft := h.left hpos
            have hnz : (p.runs - 1).toInt ≠ 0 := fun hz => hlast (Int32.toInt_inj.mp hz)
            omega }
      · right
        have hz : (p.runs - 1).toInt = 0 := by
          rw [not_not.mp hlast]
          rfl
        refine ⟨if_neg hlast, ?_, by omega, by omega⟩
        rw [List.take_of_length_le (by omega), hdrawn]
        exact hcompared s
    · rw [heq, htest] at hpass
      exact absurd rfl hpass

theorem going_or_done (D : Dependable M blocksize k)
    (hbs : blocksize.toInt = ((2 ^ k : ℕ) : ℤ)) (hk : k ≤ 21) (hpos : D.pos s = 0)
    (hruns : runs.toInt ≠ 0) {n : ℕ}
    (hpass : (turns M blocksize (start M blocksize prealloc none runs s) n).exit ≠ some .differs)
    (hfew : runs.toInt < 0 → (drawn M blocksize prealloc n).length ≤ 2 ^ 31 + runs.toInt) :
    Going M blocksize prealloc runs n
        (turns M blocksize (start M blocksize prealloc none runs s) n) ∨
      Done M blocksize prealloc runs n
        (turns M blocksize (start M blocksize prealloc none runs s) n) := by
  have harg : ∀ map : List Char, none = some map → Testable k map ∧ runs = -1 := nofun
  induction n with
  | zero =>
    obtain ⟨s', -, heq⟩ := start_eq none prealloc D hbs nofun hpos
    left
    show Going M blocksize prealloc runs 0 (start M blocksize prealloc none runs s)
    rw [heq]
    exact ⟨rfl, rfl, rfl, rfl, rfl, (Int.sub_zero _).symm, fun h => h⟩
  | succ n ih =>
    have hsound := sound_turns prealloc D hbs hk harg hpos n
    have hbefore : (turns M blocksize (start M blocksize prealloc none runs s) n).exit ≠
        some .differs := by
      intro h
      apply hpass
      show (turn M blocksize _).exit = _
      rw [turn_of_exit h, h]
    have hmono : (drawn M blocksize prealloc n).length ≤
        (drawn M blocksize prealloc (n + 1)).length := by
      rw [drawn_succ, List.length_append]
      omega
    rcases ih hbefore (fun h => by have := hfew h; omega) with hgoing | hdone
    · exact hgoing.turn D hbs hk hruns hsound hpass hfew
    · exact .inr hdone.turn

/-- On a faithful file system no run raises an alarm: after any number of rounds the maps that were
drawn have been tested, and no others; with `-r` the run ends with the last map that was asked for,
without it the run does not end before the counter overflows. -/
theorem rounds_pass (D : Dependable M blocksize k) (hbs : blocksize.toInt = ((2 ^ k : ℕ) : ℤ))
    (hk : k ≤ 21) (hpos : D.pos s = 0) {n : ℕ}
    (hn : turns M blocksize (start M blocksize prealloc none runs s) n = p)
    (hio : ∀ c ∈ p.compared, FaithfulIoctl (D.block c.file) k (c.kernel M).ioctl) :
    (0 < runs.toInt →
      p.compared.map Compared.map = (drawn M blocksize prealloc n).take runs.toInt.toNat ∧
      p.exit = if runs.toInt ≤ (drawn M blocksize prealloc n).length then some .success else none) ∧
    (runs.toInt < 0 → (drawn M blocksize prealloc n).length ≤ 2 ^ 31 + runs.toInt →
      p.compared.map Compared.map = drawn M blocksize prealloc n ∧ p.exit = none) ∧
    (∀ c ∈ p.compared, D.block c.file = mapState c.map) ∧
    D.pos p.file = 0 ∧ ∀ i, D.block p.file i = .hole := by
  have harg : ∀ map : List Char, none = some map → Testable k map ∧ runs = -1 := nofun
  have hsound : Sound D p := by
    rw [← hn]
    exact sound_turns prealloc D hbs hk harg hpos n
  have hpass : p.exit ≠ some .differs := by
    intro h
    obtain ⟨cs, c, heq, -, hfail⟩ := hsound.failed h
    have hc : c ∈ p.compared := by
      rw [heq]
      exact List.mem_append_right _ (List.mem_singleton_self c)
    obtain ⟨hmap, hfile⟩ := hsound.files c hc
    exact hfail (passed_of_faithful D hbs hmap hfile (hio c hc))
  have hcount (hruns : runs.toInt ≠ 0)
      (hfew : runs.toInt < 0 → (drawn M blocksize prealloc n).length ≤ 2 ^ 31 + runs.toInt) :
      Going M blocksize prealloc runs n p ∨ Done M blocksize prealloc runs n p := by
    rw [← hn] at hpass ⊢
    exact going_or_done D hbs hk hpos hruns hpass hfew
  refine ⟨?_, ?_, fun c hc => (hsound.files c hc).2, hsound.rewound hpass⟩
  · intro hlt
    rcases hcount (by omega) (by omega) with h | h
    · have hleft := h.left hlt
      rw [if_neg (by omega), List.take_of_length_le (by omega)]
      exact ⟨h.compared, h.exit⟩
    · rw [if_pos h.all]
      exact ⟨h.compared, h.exit⟩
  · intro hlt hfew
    rcases hcount (by omega) (fun _ => hfew) with h | h
    · exact ⟨h.compared, h.exit⟩
    · have := h.pos
      omega

end

/-! Every round draws the map of a data block, a preallocated block and a hole. -/

def dphMachine (kernel : ℕ → MemFile → Kernel) : Machine MemFile where
  calls := memCalls
  ftruncate s := some { s with block := fun _ => .hole }
  lseekSet s := some { s with pos := 0 }
  random _ := 3
  randomTypes _ i := [0, 2, 1].getD i 0
  mallocMap _ := true
  mallocBuf _ := true
  kernel := kernel

def dphDependable {kernel : ℕ → MemFile → Kernel} (h : ∀ r s, (kernel r s).malloc = true) :
    Dependable (dphMachine kernel) 4096 12 where
  toFaithful := dphFaithful
  ftruncate _ := ⟨_, rfl, rfl, fun _ => rfl⟩
  lseekSet _ := ⟨_, rfl, rfl, rfl⟩
  mallocMap _ := rfl
  mallocBuf _ := rfl
  malloc := h

def dphStart (kernel : ℕ → MemFile → Kernel) (runs : Int32) : Prog MemFile :=
  start (dphMachine kernel) 4096 true none runs dphEmpty

theorem dph_noArg (runs : Int32) :
    ∀ map : List Char, none = some map → Testable 12 map ∧ runs = -1 := nofun

def goodKernel (_ : ℕ) (_ : MemFile) : Kernel := dphFileKernel

def goodDependable : Dependable (dphMachine goodKernel) 4096 12 := dphDependable fun _ _ => rfl

theorem rounds_pass_dph :
    (turns (dphMachine goodKernel) 4096 (dphStart goodKernel 2) 3).compared.map Compared.map =
        [dphMap, dphMap] ∧
      (turns (dphMachine goodKernel) 4096 (dphStart goodKernel 2) 3).exit = some .success := by
  have hbs : (4096 : Int32).toInt = ((2 ^ 12 : ℕ) : ℤ) := by decide
  have hmaps : (turns (dphMachine goodKernel) 4096 (dphStart goodKernel 2) 3).compared.map
      Compared.map = [dphMap, dphMap] := by decide +kernel
  have hio : ∀ c ∈ (turns (dphMachine goodKernel) 4096 (dphStart goodKernel 2) 3).compared,
      FaithfulIoctl (goodDependable.block c.file) 12 (c.kernel (dphMachine goodKernel)).ioctl := by
    intro c hc
    have hsound := sound_turns true goodDependable hbs (by decide) (dph_noArg 2)
      (show goodDependable.pos dphEmpty = 0 from rfl) 3
    have hmap : c.map = dphMap := by
      have hmem : c.map ∈ [dphMap, dphMap] := by
        rw [← hmaps]
        exact List.mem_map_of_mem hc
      simpa using hmem
    rw [(hsound.files c hc).2, hmap]
    exact dphIoctl_faithful
  have h := (rounds_pass goodDependable hbs (by decide) rfl rfl hio).1 (by decide)
  exact ⟨hmaps, h.2.trans (by decide)⟩

/-- From the second round on the replies are empty. -/
def lateKernel (round : ℕ) (_ : MemFile) : Kernel :=
  { dphKernel with ioctl := fun w _ => some (if round = 0 then dphReply w else []) }

def lateDependable : Dependable (dphMachine lateKernel) 4096 12 := dphDependable fun _ _ => rfl

theorem rounds_decide_late :
    (turns (dphMachine lateKernel) 4096 (dphStart lateKernel (-1)) 2).exit = some .differs ∧
      ∃ cs c, (turns (dphMachine lateKernel) 4096 (dphStart lateKernel (-1)) 2).compared =
          cs ++ [c] ∧
        (∀ x ∈ cs, x.Right (dphMachine lateKernel) 4096 12) ∧
        ¬ c.Right (dphMachine lateKernel) 4096 12 := by
  have hbs : (4096 : Int32).toInt = ((2 ^ 12 : ℕ) : ℤ) := by decide
  have hexit : (turns (dphMachine lateKernel) 4096 (dphStart lateKernel (-1)) 2).exit =
      some .differs := by decide +kernel
  have hal : ∀ c ∈ (turns (dphMachine lateKernel) 4096 (dphStart lateKernel (-1)) 2).compared,
      c.InBlocks (dphMachine lateKernel) 4096 12 := by
    intro c _ w reply _ hr
    rw [← Option.some.inj hr]
    split
    · exact dphReply_aligned w
    · exact ⟨List.Pairwise.nil, nofun⟩
  exact ⟨hexit, (rounds_decide lateDependable hbs (by decide) (dph_noArg (-1)) rfl rfl hal).2.2
    hexit⟩

end Fiemap
