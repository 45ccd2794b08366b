import TestUnion.Seekmark.Offsets

/-!
# seekmark: the data that is written

* `generated`       the bytes that the generator gives from a state on;
* `datafill_eq`     the buffer is always filled with them;
* `randchar_ne`     numbers from the lower half do not become 234;
* `AsAsked`         what `-R` asks for, and what is asked for without it;
* `asAsked_iff`     every buffer of every run is so iff `-R` is not among the options.
-/

namespace Seekmark

def generated (R : RandR) (n : ℕ) (state : UInt32) : List UInt8 :=
  (List.range n).map fun k => randchar (R.next ((fun state => (R.next state).2)^[k] state)).1

section
variable {R : RandR} {n : ℕ} {state : UInt32}

theorem fill_eq : fill R n state = generated R n state := by
  induction n generalizing state with
  | zero => rfl
  | succ n ih =>
    show randchar (R.next state).1 :: fill R n (R.next state).2 = _
    rw [ih]
    unfold generated
    rw [List.range_succ_eq_map, List.map_cons, List.map_map]
    rfl

theorem datafill_eq (block : Int32) (makerandom : Bool) :
    datafill R block makerandom state = generated R block.toInt.toNat state := fill_eq

/-! ## the bytes -/

theorem fl_mono_rep {x y : ℚ} {m : ℕ} {e : ℤ} (hx : 0 ≤ x) (hy : y = m * 2 ^ e) (hm : m ≤ 2 ^ 24)
    (hle : x ≤ y) : fl x ≤ y :=
  (Rounding.binary 23).fl_le hx ⟨m, e, hm, hy⟩ hle

theorem fl_nonneg {x : ℚ} (hx : 0 ≤ x) : 0 ≤ fl x :=
  (Rounding.binary 23).nonneg _ ((Rounding.binary 23).fl_mem x hx)

/-- The divisor is rounded to `2 ^ 31`, or not far from it. -/
theorem fl_randMax : (2147483646 : ℚ) ≤ fl randMax := by
  have hmax : ((randMax : ℕ) : ℚ) = 2147483647 := by norm_num [randMax]
  have hpow : (2147483648 : ℚ) ∈ (Rounding.binary 23).rep := ⟨1, 31, by norm_num, by norm_num⟩
  have h := (Rounding.binary 23).nearest 2147483647 (by norm_num) _ hpow
  have hone : |(2147483648 : ℚ) - 2147483647| = 1 := by norm_num
  rw [hone, abs_le] at h
  rw [hmax]
  show (2147483646 : ℚ) ≤ (Rounding.binary 23).fl 2147483647
  linarith [h.1]

/-- A number from the lower half becomes a byte up to 192. -/
theorem randchar_ne {r : ℕ} (h : 2 * r ≤ randMax) : randchar r ≠ 234 := by
  have hr : (r : ℚ) ≤ 1073741824 := by
    have hle : r ≤ 1073741824 := by
      unfold randMax at h
      omega
    exact_mod_cast hle
  have hr0 : (0 : ℚ) ≤ r := Nat.cast_nonneg r
  have hfl : fl r ≤ 1073741824 := fl_mono_rep (m := 1) (e := 30) hr0 (by norm_num) (by norm_num) hr
  have hmax := fl_randMax
  have hquot : fl r / fl randMax ≤ 3 / 4 := by
    rw [div_le_iff₀ (by linarith)]
    linarith
  have hquot0 : 0 ≤ fl r / fl randMax := div_nonneg (fl_nonneg hr0) (by linarith)
  have hfrac : fl (fl r / fl randMax) ≤ 3 / 4 :=
    fl_mono_rep (m := 3) (e := -2) hquot0 (by norm_num) (by norm_num) hquot
  have hbyte : fl (255 * fl (fl r / fl randMax)) ≤ 192 :=
    fl_mono_rep (m := 192) (e := 0) (mul_nonneg (by norm_num) (fl_nonneg hquot0)) (by norm_num)
      (by norm_num) (by linarith)
  have hfloor := Nat.floor_le_of_le (n := 192) (by exact_mod_cast hbyte)
  intro heq
  have hnat := congrArg UInt8.toNat heq
  unfold randchar at hnat
  rw [UInt8.toNat_ofNat', Nat.mod_eq_of_lt (by omega)] at hnat
  have h234 : (234 : UInt8).toNat = 234 := rfl
  omega

end

/-! ## the buffers of a run -/

/-- With `-R` all bytes are 234; without it they come from the generator. -/
structure Io.AsAsked (R : RandR) (opts : List Opt) (g : Globals) (io : Io) : Prop where
  constant : Opt.R ∈ opts → ∀ buf ∈ io.buffer, buf = List.replicate g.block.toInt.toNat 234
  random : Opt.R ∉ opts → ∀ buf ∈ io.buffer, buf = generated R g.block.toInt.toNat io.state

section
variable {R : RandR} {g : Globals} {size : Int64} {target : Target} {s s' : St} {io : Io}

theorem step_buffer (h : Step R target g size s io s') :
    ∀ buf ∈ io.buffer, buf = generated R g.block.toInt.toNat io.state := by
  obtain ⟨lt, more, nonneg, le, shift, rfl, possible⟩ := h
  intro buf hbuf
  change buf ∈ (if g.writetest = true then _ else none : Option (List UInt8)) at hbuf
  split at hbuf
  · rw [← Option.mem_some_iff.mp hbuf]
    exact datafill_eq ..
  · cases hbuf

/-- In a write run every buffer is as asked for, for every state that the generators start in, iff
`-R` is not given. -/
theorem asAsked_iff {opts : List Opt} {seekEnd : Int64} (hargs : getargs opts = some g)
    (hwrite : g.writetest = true) (hend : -1 ≤ seekEnd.toInt)
    (hsize : targetSize g seekEnd = some size) (R : RandR) (target : Target) :
    (∀ tr s, Lts.Run (Step R target g size) start tr s → ∀ x ∈ tr, x.2.1.AsAsked R opts g) ↔
      Opt.R ∉ opts := by
  have hg := getargs_valid hargs
  have hnonneg := targetSize_nonneg hg hend hsize
  have hblock := hg.block
  refine ⟨?_, ?_⟩
  · intro hall hopt
    obtain ⟨state, hlow⟩ := R.low
    obtain ⟨mask, hmask, _⟩ := exists_mask_neg hg
    obtain ⟨s, hstep⟩ := first_step hg R target 0 (Int.le_refl 0) hnonneg hmask state
    have hasked := hall _ _ (.single hstep) _ List.mem_cons_self
    have hbuf : datafill R g.block g.writerandomdata state ∈
        (if g.writetest = true then some (datafill R g.block g.writerandomdata state) else none) := by
      rw [if_pos hwrite]
      exact Option.mem_some_self _
    have heq := hasked.constant hopt _ hbuf
    obtain ⟨n, hn⟩ : ∃ n, g.block.toInt.toNat = n + 1 := ⟨g.block.toInt.toNat - 1, by omega⟩
    rw [datafill_eq, ← fill_eq, hn, List.replicate_succ] at heq
    exact randchar_ne hlow (List.cons.inj heq).1
  · intro hopt tr s hrun x hx
    obtain ⟨-, hstep, -⟩ := hrun.steps_inv (I := fun _ => True) (fun _ _ _ _ _ => trivial) trivial x hx
    exact ⟨fun h => absurd h hopt, fun _ => step_buffer hstep⟩

end

section Examples

/-- `-f f -w destroy-data -R` -/
def constantWrite : List Opt := [.f ['f'], .w "destroy-data".toList, .R]

theorem asAsked_iff_constant : ∃ g, getargs constantWrite = some g ∧ g.writetest = true ∧
    ((∀ tr s, Lts.Run (Step glibcRandR ⟨none⟩ g 4096) start tr s →
      ∀ x ∈ tr, x.2.1.AsAsked glibcRandR constantWrite g) ↔ Opt.R ∉ constantWrite) := by
  have hargs : getargs constantWrite =
      some { file := ['f'], writetest := true, writerandomdata := false, gotrequired := true } := rfl
  have hend : -1 ≤ (4096 : Int64).toInt := by decide
  exact ⟨_, hargs, rfl, asAsked_iff hargs rfl hend rfl glibcRandR ⟨none⟩⟩

/-- The flag has no effect. -/
theorem not_asAsked : ¬ ∀ opts g seekEnd size (R : RandR) target, getargs opts = some g →
    g.writetest = true → 0 ≤ seekEnd.toInt → targetSize g seekEnd = some size →
    ∀ tr s, Lts.Run (Step R target g size) start tr s → ∀ x ∈ tr, x.2.1.AsAsked R opts g := by
  intro hall
  have hargs : getargs constantWrite =
      some { file := ['f'], writetest := true, writerandomdata := false, gotrequired := true } := rfl
  have hg := getargs_valid hargs
  obtain ⟨state, hlow⟩ := glibcRandR.low
  obtain ⟨mask, hmask, _⟩ := exists_mask_neg hg
  obtain ⟨s, hstep⟩ := first_step hg glibcRandR ⟨none⟩ 0 (Int.le_refl 0)
    (show 0 ≤ (4096 : Int64).toInt by decide) hmask state
  have hasked := hall _ _ 4096 4096 glibcRandR ⟨none⟩ hargs rfl (by decide) rfl _ _ (.single hstep) _
    List.mem_cons_self
  have heq := hasked.constant (by decide) _ (Option.mem_some_self _)
  exact randchar_ne hlow (List.cons.inj heq).1

end Examples

end Seekmark
