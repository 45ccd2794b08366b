import TestUnion.Fiemap.CheckSpec

/-!
# fiemap-test: what `check_data` decides at byte granularity

Here extents begin and end at any byte.

* `Extent.Holds e x`   byte `x` lies in `e`; `e.past` is the first byte behind it;
* `Bytewise b es`      sorted, disjoint, non-empty extents; no sum that the scan forms with them and
                       the block size `b` wraps;
* `Route b o route`    the extents that the scan goes through from the offset `o` on: each one holds
                       the second byte behind the one before it, and the last one reaches a block
                       size beyond the offset at which it was entered;
* `route_of_scan`, `scan_of_route`   the scan finds an extent iff it is the end of a route;
* `checkData_covers_iff`, `checkData_complete_iff`   when `check_data` is sound and complete.
-/

namespace Fiemap

open CInt

variable {b : ℕ} {blocksize : Int32} {e : Extent} {es route : List Extent} {o : ℕ} {off : UInt64}

/-- the first byte behind the extent -/
def Extent.past (e : Extent) : ℕ := e.feLogical.toNat + e.feLength.toNat

def Extent.Holds (e : Extent) (x : ℕ) : Prop := e.feLogical.toNat ≤ x ∧ x < e.past

instance (e : Extent) (x : ℕ) : Decidable (e.Holds x) := by
  unfold Extent.Holds
  infer_instance

structure Bytewise (b : ℕ) (es : List Extent) : Prop where
  sorted : es.Pairwise fun x y => x.past ≤ y.feLogical.toNat
  pos : ∀ e ∈ es, 0 < e.feLength.toNat
  noWrap : ∀ e ∈ es, e.past + 1 + b < 2 ^ 64

theorem Bytewise.tail (h : Bytewise b (e :: es)) : Bytewise b es :=
  ⟨h.sorted.tail, fun x hx => h.pos x (List.mem_cons_of_mem _ hx),
    fun x hx => h.noWrap x (List.mem_cons_of_mem _ hx)⟩

theorem Bytewise.head_le (h : Bytewise b (e :: es)) : ∀ x ∈ es, e.past ≤ x.feLogical.toNat :=
  (List.pairwise_cons.mp h.sorted).1

def Route (b : ℕ) : ℕ → List Extent → Prop
  | _, [] => False
  | o, [e] => e.Holds o ∧ o + b ≤ e.past
  | o, e :: e' :: rest => e.Holds o ∧ e.past < o + b ∧ Route b (e.past + 1) (e' :: rest)

theorem Route.ne_nil (h : Route b o route) : route ≠ [] := by
  rintro rfl
  exact h

theorem Route.head (h : Route b o (e :: route)) : e.Holds o := by
  cases route with
  | nil => exact h.1
  | cons e' rest => exact h.1

theorem Route.cons (he : e.Holds o) (hlt : e.past < o + b) (h : Route b (e.past + 1) route) :
    Route b o (e :: route) := by
  cases route with
  | nil => exact h.elim
  | cons e' rest => exact ⟨he, hlt, h⟩

/-- The extents of a route end behind the offset at which it begins. -/
theorem Route.le_past (h : Route b o route) (he : e ∈ route) : o ≤ e.past := by
  induction route generalizing o with
  | nil => exact h.elim
  | cons x rest ih =>
    have hx := h.head.2
    rcases List.mem_cons.mp he with rfl | he
    · exact hx.le
    · cases rest with
      | nil => cases he
      | cons y rest =>
        have := ih h.2.2 he
        omega

/-! ## the scan -/

section
variable (hbs : blocksize.toInt = b)
include hbs

theorem toNat_u64_blocksize : (u64 blocksize).toNat = b := by
  rw [toNat_u64 (by rw [hbs]; exact Int.natCast_nonneg _), hbs]
  rfl

/-- One round of the scan, in natural numbers.  The test for `FIEMAP_EXTENT_UNWRITTEN` never
fires. -/
theorem checkDataScan_cons (prealloc : Bool) (h : Bytewise b (e :: es)) (hoff : off.toNat + b < 2 ^ 64) :
    checkDataScan blocksize prealloc (e :: es) off =
      if e.past < off.toNat then checkDataScan blocksize prealloc es off
      else if off.toNat + b < e.feLogical.toNat then .ok none
      else if e.Holds off.toNat then
        if e.past < off.toNat + b then checkDataScan blocksize prealloc es (e.end + 1)
        else .ok (some e)
      else checkDataScan blocksize prealloc es off := by
  have hwrap := h.noWrap e (List.mem_cons_self ..)
  have hend : e.end.toNat = e.past := by
    unfold Extent.end Extent.past at *
    rw [UInt64.toNat_add, Nat.mod_eq_of_lt (by omega)]
  have hsum : (off + u64 blocksize).toNat = off.toNat + b := by
    rw [UInt64.toNat_add, toNat_u64_blocksize hbs, Nat.mod_eq_of_lt hoff]
  have hbit : cNot e.feFlags &&& extentUnwritten = 0 := cNot_and_bit e.feFlags
  rw [checkDataScan]
  simp only [gt_iff_lt, ge_iff_le, UInt64.lt_iff_toNat_lt, UInt64.le_iff_toNat_le, hend, hsum, hbit,
    ne_eq, not_true_eq_false, and_false, if_false]
  rfl

omit hbs in
theorem toNat_next (h : Bytewise b (e :: es)) : (e.end + 1).toNat = e.past + 1 := by
  have hwrap := h.noWrap e (List.mem_cons_self ..)
  unfold Extent.end Extent.past at *
  rw [UInt64.toNat_add, UInt64.toNat_add, UInt64.toNat_one]
  omega

theorem checkDataScan_total (prealloc : Bool) (h : Bytewise b es) (hoff : off.toNat + b < 2 ^ 64) :
    ∃ r, checkDataScan blocksize prealloc es off = .ok r := by
  induction es generalizing off with
  | nil => exact ⟨none, rfl⟩
  | cons e es ih =>
    have hnext : (e.end + 1).toNat + b < 2 ^ 64 := by
      rw [toNat_next h]
      exact h.noWrap e (List.mem_cons_self ..)
    rw [checkDataScan_cons hbs prealloc h hoff]
    split_ifs
    · exact ih h.tail hoff
    · exact ⟨none, rfl⟩
    · exact ih h.tail hnext
    · exact ⟨some e, rfl⟩
    · exact ih h.tail hoff

theorem route_of_scan (prealloc : Bool) (h : Bytewise b es) (hoff : off.toNat + b < 2 ^ 64)
    (hscan : checkDataScan blocksize prealloc es off = .ok (some e)) :
    ∃ route, route.Sublist es ∧ Route b off.toNat route ∧ route.getLast? = some e := by
  induction es generalizing off with
  | nil => cases hscan
  | cons x es ih =>
    have hnext : (x.end + 1).toNat + b < 2 ^ 64 := by
      rw [toNat_next h]
      exact h.noWrap x (List.mem_cons_self ..)
    have hskip (hx : checkDataScan blocksize prealloc es off = .ok (some e)) :
        ∃ route, route.Sublist (x :: es) ∧ Route b off.toNat route ∧ route.getLast? = some e := by
      obtain ⟨route, hsub, hr, hl⟩ := ih h.tail hoff hx
      exact ⟨route, hsub.cons x, hr, hl⟩
    rw [checkDataScan_cons hbs prealloc h hoff] at hscan
    split_ifs at hscan with h1 h2 h3 h4
    · exact hskip hscan
    · cases hscan
    · obtain ⟨route, hsub, hr, hl⟩ := ih h.tail hnext hscan
      rw [toNat_next h] at hr
      refine ⟨x :: route, hsub.cons_cons x, hr.cons h3 h4, ?_⟩
      rw [List.getLast?_cons, hl]
      rfl
    · cases hscan
      exact ⟨[e], (List.nil_sublist es).cons_cons e, ⟨h3, Nat.le_of_not_lt h4⟩, rfl⟩
    · exact hskip hscan

theorem scan_of_route (prealloc : Bool) (h : Bytewise b es) (hoff : off.toNat + b < 2 ^ 64)
    (hsub : route.Sublist es) (hr : Route b off.toNat route) :
    checkDataScan blocksize prealloc es off = .ok route.getLast? := by
  induction es generalizing off route with
  | nil => exact absurd (List.sublist_nil.mp hsub) hr.ne_nil
  | cons x es ih =>
    rw [checkDataScan_cons hbs prealloc h hoff]
    cases hsub with
    | cons _ hsub =>
      -- the route begins behind `x`
      have hge : x.past ≤ off.toNat := by
        cases route with
        | nil => exact hr.elim
        | cons y rest =>
          exact (h.head_le y (hsub.subset (List.mem_cons_self ..))).trans hr.head.1
      have hpos := h.pos x (List.mem_cons_self ..)
      have hno : ¬ x.Holds off.toNat := fun hx => absurd hx.2 (Nat.not_lt.mpr hge)
      have hin : ¬ off.toNat + b < x.feLogical.toNat := by
        unfold Extent.past at hge
        omega
      rw [if_neg hno, if_neg hin, ite_self]
      exact ih h.tail hoff hsub hr
    | @cons_cons rest _ _ hsub =>
      have hx := hr.head
      have h1 : ¬ x.past < off.toNat := by
        have := hx.2
        omega
      have h2 : ¬ off.toNat + b < x.feLogical.toNat := by
        have := hx.1
        omega
      rw [if_neg h1, if_neg h2, if_pos hx]
      cases rest with
      | nil =>
        rw [if_neg (Nat.not_lt.mpr hr.2)]
        rfl
      | cons y rest =>
        have hnext : (x.end + 1).toNat + b < 2 ^ 64 := by
          rw [toNat_next h]
          exact h.noWrap x (List.mem_cons_self ..)
        rw [if_pos hr.2.1, ih h.tail hnext hsub (by rw [toNat_next h]; exact hr.2.2)]
        rfl

theorem checkData_bytes_iff (last prealloc : Bool) (h : Bytewise b es)
    (hoff : off.toNat + b < 2 ^ 64) :
    checkData blocksize es off last prealloc = .ok () ↔
      ∃ route, route.Sublist es ∧ Route b off.toNat route ∧
        ∀ e ∈ route.getLast?, last = true → e.has extentLast := by
  unfold checkData
  refine ⟨?_, ?_⟩
  · intro hok
    obtain ⟨r, hscan⟩ := checkDataScan_total hbs prealloc h hoff
    rw [hscan] at hok
    cases r with
    | none => cases hok
    | some e =>
      obtain ⟨route, hsub, hr, hl⟩ := route_of_scan hbs prealloc h hoff hscan
      refine ⟨route, hsub, hr, ?_⟩
      intro e' he' hlast
      obtain rfl : e = e' := Option.some.inj (hl.symm.trans he')
      by_contra hno
      dsimp only at hok
      rw [if_pos ⟨hlast, hno⟩] at hok
      cases hok
  · intro hex
    obtain ⟨route, hsub, hr, hlast⟩ := hex
    rw [scan_of_route hbs prealloc h hoff hsub hr]
    cases hl : route.getLast? with
    | none => exact absurd (List.getLast?_eq_none_iff.mp hl) hr.ne_nil
    | some e => exact if_neg fun hx => hx.2 (hlast e hl hx.1)

end

/-! ## the bytes of the block -/

/-- all `b` bytes from `o` on lie in extents -/
def Covered (es : List Extent) (o b : ℕ) : Prop :=
  ∀ x, o ≤ x → x < o + b → ∃ e ∈ es, e.Holds x

/-- The bytes behind the extents of a route are the only ones that it can leave out. -/
theorem Route.covers {stop x : ℕ} (hsub : route ⊆ es) (hr : Route b o route) (hstop : stop ≤ o + b)
    (hskip : ∀ e ∈ route.dropLast, e.past < stop → ∃ e' ∈ es, e'.Holds e.past)
    (hx : o ≤ x) (hlt : x < stop) : ∃ e ∈ es, e.Holds x := by
  induction route generalizing o with
  | nil => exact hr.elim
  | cons e rest ih =>
    have he : e ∈ es := hsub (List.mem_cons_self ..)
    have hin : x < e.past → ∃ e ∈ es, e.Holds x := fun hp => ⟨e, he, hr.head.1.trans hx, hp⟩
    cases rest with
    | nil => exact hin (lt_of_lt_of_le hlt (hstop.trans hr.2))
    | cons e' rest =>
      obtain ⟨ho, hhop, hrest⟩ := hr
      rcases Nat.lt_trichotomy x e.past with hp | rfl | hp
      · exact hin hp
      · exact hskip e (by simp) hlt
      · have hle := ho.2
        refine ih (fun y hy => hsub (List.mem_cons_of_mem _ hy)) hrest (by omega) ?_ hp
        intro y hy
        exact hskip y (by simp [hy])

section
variable (hbs : blocksize.toInt = b)
include hbs

/-- If `check_data` returns 0 then all bytes of the block lie in extents: this holds exactly when no
route to an acceptable extent leaves out a byte of the block behind one of its extents. -/
theorem checkData_covers_iff (last prealloc : Bool) (h : Bytewise b es)
    (hoff : off.toNat + b < 2 ^ 64) :
    (checkData blocksize es off last prealloc = .ok () → Covered es off.toNat b) ↔
      ∀ route, route.Sublist es → Route b off.toNat route →
        (∀ e ∈ route.getLast?, last = true → e.has extentLast) →
        ∀ e ∈ route.dropLast, e.past < off.toNat + b → ∃ e' ∈ es, e'.Holds e.past := by
  have hdec := checkData_bytes_iff hbs last prealloc h hoff
  refine ⟨?_, ?_⟩
  · intro hsound route hsub hr hlast e he hlt
    have hcov := hsound (hdec.mpr ⟨route, hsub, hr, hlast⟩)
    exact hcov e.past (hr.le_past (List.dropLast_subset _ he)) hlt
  · intro hskip hok x hx hlt
    obtain ⟨route, hsub, hr, hlast⟩ := hdec.mp hok
    exact hr.covers hsub.subset le_rfl (hskip route hsub hr hlast) hx hlt

end

/-- Byte 1000 lies between two extents, and the scan goes on behind it. -/
def gapReply : List Extent := [⟨0, 0x10000, 1000, 0⟩, ⟨1001, 0x20000, 5000, 0⟩]

theorem checkData_skips : Bytewise 4096 gapReply ∧
    checkData 4096 gapReply 0 false false = .ok () ∧ ¬ Covered gapReply 0 4096 := by
  refine ⟨⟨by decide, by decide, by decide⟩, by decide, ?_⟩
  intro hcov
  exact absurd (hcov 1000 (by decide) (by decide)) (by decide)

/-- a block that begins in one extent and ends in the one right behind it -/
def twoReply : List Extent := [⟨0, 0x10000, 1000, 0⟩, ⟨1000, 0x20000, 5000, 0⟩]

theorem checkData_covers_iff_two : checkData 4096 twoReply 0 false false = .ok () ∧
    ((checkData 4096 twoReply 0 false false = .ok () → Covered twoReply 0 4096) ↔
      ∀ route, route.Sublist twoReply → Route 4096 0 route →
        (∀ e ∈ route.getLast?, false = true → e.has extentLast) →
        ∀ e ∈ route.dropLast, e.past < 4096 → ∃ e' ∈ twoReply, e'.Holds e.past) := by
  have hbytes : Bytewise 4096 twoReply := ⟨by decide, by decide, by decide⟩
  exact ⟨by decide, checkData_covers_iff rfl false false hbytes (by decide)⟩

/-- A covered block is found by `check_data` exactly when a route leads from its first byte to an
extent that reaches a block size beyond the offset at which the route enters it. -/
theorem checkData_complete_iff (hbs : blocksize.toInt = b) (h : Bytewise b es)
    (hoff : off.toNat + b < 2 ^ 64) :
    (Covered es off.toNat b → checkData blocksize es off false false = .ok ()) ↔
      (Covered es off.toNat b → ∃ route, route.Sublist es ∧ Route b off.toNat route) := by
  apply imp_congr_right
  intro _
  rw [checkData_bytes_iff hbs false false h hoff]
  simp

/-- The two extents end with the block, and the scan leaves them behind. -/
def tightReply : List Extent := [⟨0, 0x10000, 1000, 0⟩, ⟨1000, 0x20000, 3096, 0⟩]

theorem checkData_misses : Bytewise 4096 tightReply ∧ Covered tightReply 0 4096 ∧
    checkData 4096 tightReply 0 false false ≠ .ok () := by
  refine ⟨⟨by decide, by decide, by decide⟩, ?_, by decide⟩
  intro x _ hx
  by_cases hlt : x < 1000
  · exact ⟨_, List.mem_cons_self .., Nat.zero_le x, hlt⟩
  · exact ⟨_, List.mem_cons_of_mem _ (List.mem_singleton_self _), Nat.le_of_not_lt hlt, hx⟩

theorem checkData_complete_iff_two : checkData 4096 twoReply 0 false false = .ok () ∧
    ((Covered twoReply 0 4096 → checkData 4096 twoReply 0 false false = .ok ()) ↔
      (Covered twoReply 0 4096 → ∃ route, route.Sublist twoReply ∧ Route 4096 0 route)) := by
  have hbytes : Bytewise 4096 twoReply := ⟨by decide, by decide, by decide⟩
  have hoff : (0 : UInt64).toNat + 4096 < 2 ^ 64 := by decide
  exact ⟨by decide, checkData_complete_iff rfl hbytes hoff⟩

end Fiemap
