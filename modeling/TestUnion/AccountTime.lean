import TestUnion.CInt
import TestUnion.ExceptLoop

/-!
# creat_unlink: the elapsed time

* `borrow`, `subtract`, `carry`   what is stored in the end time in a round of the first loop, between
                   the loops and in a round of the second one;
* `elapsed`        the loops and the subtraction, and `accountTime` the whole function;
* `elapsed_exact`  whatever is left is the exact difference, from any two times;
* `Normal`         a time as the clock gives it, with less than a million microseconds;
* `Accounts`       the loops end and leave the exact difference, in its normal form;
* `Fits`           the times whose seconds do not overflow: between two clock times the first loop
                   has one round at most and the second one none, and `Accounts` iff they fit.
-/

namespace CreatUnlink

open CInt ExceptLoop

structure Timeval where
  tv_sec : Int64
  tv_usec : Int64
  deriving DecidableEq, Repr

inductive Stop where
  | endless
  | overflow
  deriving DecidableEq, Repr

inductive Report where
  | failed (perror : String)
  /-- the totals are printed -/
  | total (files : Int32)
  deriving DecidableEq, Repr

/-- the assignments to `tv_sec` and `tv_usec`, in either order -/
def store (sec usec : ℤ) : Except Stop Timeval := do
  let tv_sec ← signed64 .overflow sec
  let tv_usec ← signed64 .overflow usec
  return ⟨tv_sec, tv_usec⟩

/-- a round of the first loop -/
def borrow (etv : Timeval) : Except Stop Timeval :=
  store (etv.tv_sec.toInt - 1) (etv.tv_usec.toInt + 1000000)

def subtract (stv etv : Timeval) : Except Stop Timeval :=
  store (etv.tv_sec.toInt - stv.tv_sec.toInt) (etv.tv_usec.toInt - stv.tv_usec.toInt)

/-- a round of the second loop -/
def carry (etv : Timeval) : Except Stop Timeval :=
  store (etv.tv_sec.toInt + 1) (etv.tv_usec.toInt - 1000000)

/-- Each loop has `fuel` rounds at most. -/
def elapsed (fuel : ℕ) (stv etv : Timeval) : Except Stop Timeval := do
  let etv ← whileLoop .endless (fun etv => etv.tv_usec < stv.tv_usec) borrow fuel etv
  let etv ← subtract stv etv
  whileLoop .endless (fun etv => etv.tv_usec > 1000000) carry fuel etv

/-- `now` is what `gettimeofday` stores; the new end time comes with what is printed. -/
def accountTime (fuel : ℕ) (stv etv : Timeval) (now : Option Timeval) (files : Int32) :
    Except Stop (Timeval × Report) :=
  match now with
  | none => .ok (etv, .failed "get end time failed.\n")
  | some etv =>
    if files ≠ 0 then do
      let etv ← elapsed fuel stv etv
      return (etv, .total files)
    else .ok (etv, .failed "Didn't create/delete any files")

/-! ## the difference -/

/-- in microseconds -/
def Timeval.micros (t : Timeval) : ℤ := t.tv_sec.toInt * 1000000 + t.tv_usec.toInt

structure Timeval.Normal (t : Timeval) : Prop where
  nonneg : 0 ≤ t.tv_usec.toInt
  lt : t.tv_usec.toInt < 1000000

/-- The loops end, after one round or none, with the exact difference in its normal form. -/
def Accounts (stv etv now : Timeval) (files : Int32) : Prop :=
  ∃ r : Timeval, (∀ fuel, 1 ≤ fuel →
      accountTime fuel stv etv (some now) files = .ok (r, .total files)) ∧
    r.Normal ∧ r.micros = now.micros - stv.micros

/-- the seconds of the end after the first loop -/
def secsLeft (stv now : Timeval) : ℤ :=
  if now.tv_usec < stv.tv_usec then now.tv_sec.toInt - 1 else now.tv_sec.toInt

structure Fits (stv now : Timeval) : Prop where
  borrow : -2 ^ 63 ≤ secsLeft stv now
  low : -2 ^ 63 ≤ secsLeft stv now - stv.tv_sec.toInt
  high : secsLeft stv now - stv.tv_sec.toInt < 2 ^ 63

section
variable {stv etv now e r : Timeval} {sec usec : ℤ} {fuel : ℕ}

theorem store_eq_ok : store sec usec = .ok r ↔ r.tv_sec.toInt = sec ∧ r.tv_usec.toInt = usec := by
  unfold store
  rw [bind_eq_ok]
  refine ⟨?_, ?_⟩
  · intro h
    obtain ⟨a, ha, h⟩ := h
    obtain ⟨b, hb, h⟩ := bind_eq_ok.mp h
    cases h
    exact ⟨signed64_eq_ok.mp ha, signed64_eq_ok.mp hb⟩
  · intro h
    exact ⟨r.tv_sec, signed64_eq_ok.mpr h.1,
      bind_eq_ok.mpr ⟨r.tv_usec, signed64_eq_ok.mpr h.2, rfl⟩⟩

theorem exists_store (h1 : -2 ^ 63 ≤ sec) (h2 : sec < 2 ^ 63) (h3 : -2 ^ 63 ≤ usec)
    (h4 : usec < 2 ^ 63) : ∃ r, store sec usec = .ok r := by
  obtain ⟨a, _, ha⟩ := exists_signed64 Stop.overflow h1 h2
  obtain ⟨b, _, hb⟩ := exists_signed64 Stop.overflow h3 h4
  exact ⟨⟨a, b⟩, store_eq_ok.mpr ⟨ha, hb⟩⟩

theorem store_micros (h : store sec usec = .ok r) : r.micros = sec * 1000000 + usec := by
  obtain ⟨hsec, husec⟩ := store_eq_ok.mp h
  unfold Timeval.micros
  rw [hsec, husec]

theorem borrow_micros (h : borrow e = .ok r) : r.micros = e.micros := by
  rw [store_micros h]
  unfold Timeval.micros
  omega

theorem carry_micros (h : carry e = .ok r) : r.micros = e.micros := by
  rw [store_micros h]
  unfold Timeval.micros
  omega

theorem subtract_micros (h : subtract stv e = .ok r) : r.micros = e.micros - stv.micros := by
  rw [store_micros h]
  unfold Timeval.micros
  omega

theorem elapsed_eq_ok : elapsed fuel stv now = .ok r ↔
    ∃ e d, whileLoop .endless (fun e => e.tv_usec < stv.tv_usec) borrow fuel now = .ok e ∧
      subtract stv e = .ok d ∧
      whileLoop .endless (fun e => e.tv_usec > 1000000) carry fuel d = .ok r := by
  unfold elapsed
  simp only [bind_eq_ok]
  refine ⟨?_, ?_⟩
  · intro h
    obtain ⟨e, he, d, hd, hr⟩ := h
    exact ⟨e, d, he, hd, hr⟩
  · intro h
    obtain ⟨e, d, he, hd, hr⟩ := h
    exact ⟨e, he, d, hd, hr⟩

/-! ## the first loop -/

/-- an end time that the first loop goes through -/
structure Borrowing (stv now e : Timeval) : Prop where
  micros : e.micros = now.micros
  low : now.tv_usec.toInt ≤ e.tv_usec.toInt
  high : e.tv_usec = now.tv_usec ∨ e.tv_usec.toInt < stv.tv_usec.toInt + 1000000

theorem Borrowing.refl : Borrowing stv now now := ⟨rfl, Int.le_refl _, .inl rfl⟩

theorem Borrowing.step (h : Borrowing stv now e) (hc : e.tv_usec < stv.tv_usec)
    (hb : borrow e = .ok r) : Borrowing stv now r := by
  have husec := (store_eq_ok.mp hb).2
  have hlt := Int64.lt_iff_toInt_lt.mp hc
  have hlow := h.low
  exact ⟨(borrow_micros hb).trans h.micros, by omega, .inr (by omega)⟩

theorem borrowing_of_loop
    (h : whileLoop .endless (fun e => e.tv_usec < stv.tv_usec) borrow fuel now = .ok e) :
    Borrowing stv now e ∧ stv.tv_usec.toInt ≤ e.tv_usec.toInt := by
  obtain ⟨hb, hc⟩ := whileLoop_inv Borrowing.refl (fun _ _ hi hc hb => hi.step hc hb) h
  refine ⟨hb, ?_⟩
  rw [Int64.lt_iff_toInt_lt] at hc
  omega

theorem Borrowing.lt (h : Borrowing stv now e) (hs : stv.Normal) (hn : now.Normal) :
    e.tv_usec.toInt < stv.tv_usec.toInt + 1000000 := by
  have h0 := hs.nonneg
  have hlt := hn.lt
  rcases h.high with heq | hlt'
  · rw [heq]
    omega
  · exact hlt'

/-- The time after the first loop is the only one with its microseconds in this range. -/
theorem eq_secsLeft (hs : stv.Normal) (hn : now.Normal) (h : sec * 1000000 + usec = now.micros)
    (hle : stv.tv_usec.toInt ≤ usec) (hlt : usec < stv.tv_usec.toInt + 1000000) :
    sec = secsLeft stv now := by
  have h1 := hs.nonneg
  have h2 := hs.lt
  have h3 := hn.nonneg
  have h4 := hn.lt
  unfold Timeval.micros at h
  unfold secsLeft
  split
  · next hc =>
    rw [Int64.lt_iff_toInt_lt] at hc
    omega
  · next hc =>
    rw [Int64.lt_iff_toInt_lt] at hc
    omega

/-- A round that is still to come leaves the seconds that the last one does. -/
theorem Borrowing.borrow_ok (h : Borrowing stv now e) (hs : stv.Normal) (hn : now.Normal)
    (hc : e.tv_usec < stv.tv_usec) (hfit : -2 ^ 63 ≤ secsLeft stv now) : ∃ r, borrow e = .ok r := by
  have hlt := Int64.lt_iff_toInt_lt.mp hc
  have h0 := hn.nonneg
  have hlow := h.low
  have hmax := hs.lt
  have hmicros : (e.tv_sec.toInt - 1) * 1000000 + (e.tv_usec.toInt + 1000000) = now.micros := by
    rw [← h.micros]
    unfold Timeval.micros
    omega
  have hsec := eq_secsLeft hs hn hmicros (by omega) (by omega)
  have htop := e.tv_sec.toInt_lt
  exact exists_store (by omega) (by omega) (by omega) (by omega)

theorem Borrowing.borrow_done (h : Borrowing stv now e) (hs : stv.Normal) (hn : now.Normal)
    (hb : borrow e = .ok r) : ¬ r.tv_usec < stv.tv_usec := by
  have h0 := hn.nonneg
  have hlow := h.low
  have hmax := hs.lt
  rw [Int64.lt_iff_toInt_lt, (store_eq_ok.mp hb).2]
  omega

/-- With enough seconds to borrow from, one round is enough. -/
theorem borrow_total (hs : stv.Normal) (hn : now.Normal) (hfit : -2 ^ 63 ≤ secsLeft stv now) :
    ∃ e, ∀ fuel, 1 ≤ fuel →
      whileLoop Stop.endless (fun e => e.tv_usec < stv.tv_usec) borrow fuel now = .ok e := by
  let v : Timeval → ℕ := fun e => if e.tv_usec < stv.tv_usec then 1 else 0
  have hv : v now ≤ 1 := by
    show (if _ then 1 else 0) ≤ 1
    split <;> omega
  refine whileLoop_total ?_ (Borrowing.refl : Borrowing stv now now) hv
  intro e hi hc
  obtain ⟨r, hr⟩ := hi.borrow_ok hs hn hc hfit
  refine ⟨r, hr, hi.step hc hr, ?_⟩
  show (if r.tv_usec < stv.tv_usec then 1 else 0) < if e.tv_usec < stv.tv_usec then 1 else 0
  rw [if_neg (hi.borrow_done hs hn hr), if_pos hc]
  exact Nat.one_pos

/-! ## what is left -/

theorem carries_iff : e.tv_usec > 1000000 ↔ 1000000 < e.tv_usec.toInt := Int64.lt_iff_toInt_lt

/-- The bound of the second loop is strict: a whole second may be left in the microseconds. -/
theorem carry_of_loop {d : Timeval} (h0 : 0 ≤ d.tv_usec.toInt)
    (h : whileLoop .endless (fun e => e.tv_usec > 1000000) carry fuel d = .ok r) :
    r.micros = d.micros ∧ 0 ≤ r.tv_usec.toInt ∧ r.tv_usec.toInt ≤ 1000000 := by
  have hstep : ∀ e e' : Timeval, (e.micros = d.micros ∧ 0 ≤ e.tv_usec.toInt) →
      e.tv_usec > 1000000 → carry e = .ok e' → e'.micros = d.micros ∧ 0 ≤ e'.tv_usec.toInt := by
    intro e e' hi hc hb
    have husec := (store_eq_ok.mp hb).2
    have hlt := carries_iff.mp hc
    exact ⟨(carry_micros hb).trans hi.1, by omega⟩
  obtain ⟨hi, hc⟩ := whileLoop_inv ⟨rfl, h0⟩ hstep h
  rw [carries_iff] at hc
  exact ⟨hi.1, hi.2, by omega⟩

/-- the loops between any two times -/
theorem elapsed_exact (h : elapsed fuel stv now = .ok r) : r.micros = now.micros - stv.micros ∧
    0 ≤ r.tv_usec.toInt ∧ r.tv_usec.toInt ≤ 1000000 := by
  obtain ⟨e, d, he, hd, hr⟩ := elapsed_eq_ok.mp h
  obtain ⟨hb, hle⟩ := borrowing_of_loop he
  have husec := (store_eq_ok.mp hd).2
  obtain ⟨hmicros, h0, hmax⟩ := carry_of_loop (by omega) hr
  refine ⟨?_, h0, hmax⟩
  rw [hmicros, subtract_micros hd, hb.micros]

/-- Between two clock times the second loop has nothing to do. -/
theorem subtract_normal (hs : stv.Normal) (hn : now.Normal) (hb : Borrowing stv now e)
    (hle : stv.tv_usec.toInt ≤ e.tv_usec.toInt) (h : subtract stv e = .ok r) : r.Normal := by
  have husec := (store_eq_ok.mp h).2
  have hlt := hb.lt hs hn
  exact ⟨by omega, by omega⟩

theorem Timeval.Normal.carry_loop (h : r.Normal) (fuel : ℕ) :
    whileLoop .endless (fun e => e.tv_usec > 1000000) carry fuel r = .ok r := by
  apply whileLoop_done
  have hmax := h.lt
  rw [carries_iff]
  omega

theorem elapsed_normal (hs : stv.Normal) (hn : now.Normal) (h : elapsed fuel stv now = .ok r) :
    r.Normal ∧ Fits stv now := by
  obtain ⟨e, d, he, hd, hr⟩ := elapsed_eq_ok.mp h
  obtain ⟨hb, hle⟩ := borrowing_of_loop he
  have hnormal := subtract_normal hs hn hb hle hd
  cases (hnormal.carry_loop fuel).symm.trans hr
  have hsec := eq_secsLeft hs hn hb.micros hle (hb.lt hs hn)
  have hdsec := (store_eq_ok.mp hd).1
  rw [hsec] at hdsec
  refine ⟨hnormal, ?_, ?_, ?_⟩
  · rw [← hsec]
    exact e.tv_sec.le_toInt
  · rw [← hdsec]
    exact r.tv_sec.le_toInt
  · rw [← hdsec]
    exact r.tv_sec.toInt_lt

theorem elapsed_total (hs : stv.Normal) (hn : now.Normal) (hfit : Fits stv now) :
    ∃ r, ∀ fuel, 1 ≤ fuel → elapsed fuel stv now = .ok r := by
  obtain ⟨e, he⟩ := borrow_total hs hn hfit.borrow
  obtain ⟨hb, hle⟩ := borrowing_of_loop (he 1 (Nat.le_refl 1))
  have hsec := eq_secsLeft hs hn hb.micros hle (hb.lt hs hn)
  have hlow := hfit.low
  have hhigh := hfit.high
  have hlt := hb.lt hs hn
  have hd : ∃ d, subtract stv e = .ok d :=
    exists_store (by omega) (by omega) (by omega) (by omega)
  obtain ⟨d, hd⟩ := hd
  have hnormal := subtract_normal hs hn hb hle hd
  refine ⟨d, ?_⟩
  intro fuel hfuel
  exact elapsed_eq_ok.mpr ⟨e, d, he fuel hfuel, hd, hnormal.carry_loop fuel⟩

theorem accountTime_eq_ok {files : Int32} (hfiles : files ≠ 0) :
    accountTime fuel stv etv (some now) files = .ok (r, .total files) ↔
      elapsed fuel stv now = .ok r := by
  show (if files ≠ 0 then _ else _) = _ ↔ _
  rw [if_pos hfiles, bind_eq_ok]
  refine ⟨?_, ?_⟩
  · intro h
    obtain ⟨a, ha, h⟩ := h
    cases h
    exact ha
  · intro h
    exact ⟨r, h, rfl⟩

theorem Accounts.fits {files : Int32} (hs : stv.Normal) (hn : now.Normal) (hfiles : files ≠ 0)
    (h : Accounts stv etv now files) : Fits stv now := by
  obtain ⟨r, hr, _⟩ := h
  exact (elapsed_normal hs hn ((accountTime_eq_ok hfiles).mp (hr 1 (Nat.le_refl 1)))).2

theorem Fits.accounts {files : Int32} (hs : stv.Normal) (hn : now.Normal) (hfiles : files ≠ 0)
    (h : Fits stv now) : Accounts stv etv now files := by
  obtain ⟨r, hr⟩ := elapsed_total hs hn h
  have hone := hr 1 (Nat.le_refl 1)
  refine ⟨r, ?_, (elapsed_normal hs hn hone).1, (elapsed_exact hone).1⟩
  intro fuel hfuel
  exact (accountTime_eq_ok hfiles).mpr (hr fuel hfuel)

/-- The end time of two clock times is exact and normal iff the seconds do not overflow. -/
theorem accounts_iff_fits {files : Int32} (hs : stv.Normal) (hn : now.Normal) (hfiles : files ≠ 0) :
    Accounts stv etv now files ↔ Fits stv now :=
  ⟨fun h => h.fits hs hn hfiles, fun h => h.accounts hs hn hfiles⟩

/-- from 100.7 s back to 98.2 s -/
theorem accounts_set_back : Accounts ⟨100, 700000⟩ ⟨0, 0⟩ ⟨98, 200000⟩ 3 :=
  (accounts_iff_fits ⟨by decide, by decide⟩ ⟨by decide, by decide⟩ (by decide)).mpr
    ⟨by decide, by decide, by decide⟩

/-- from a second before the epoch to the last second there is -/
theorem not_accounts_largest : (⟨-1, 0⟩ : Timeval).Normal ∧
    (⟨9223372036854775807, 0⟩ : Timeval).Normal ∧
    ¬ Accounts ⟨-1, 0⟩ ⟨0, 0⟩ ⟨9223372036854775807, 0⟩ 1 := by
  have hs : (⟨-1, 0⟩ : Timeval).Normal := ⟨by decide, by decide⟩
  have hn : (⟨9223372036854775807, 0⟩ : Timeval).Normal := ⟨by decide, by decide⟩
  refine ⟨hs, hn, ?_⟩
  intro h
  exact absurd (h.fits hs hn (by decide)).high (by decide)

end

end CreatUnlink
