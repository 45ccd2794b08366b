import TestUnion.Fiemap.Compare
import TestUnion.Fiemap.CheckSpec

/-!
# fiemap-test: the windows cover the map, and the comparison decides it

* `checkWindow_ok`, `checkWindow_error`   the inner loop checks the blocks of its window in order;
* `WindowOk`          window `w` gets a reply that passes `check_flags` and every block check;
* `windowLoop_ok`, `windowLoop_error`     the outer loop always ends: with 0 and every index checked
                      once if all windows are `WindowOk`, else with an error;
* `compare_decides`   the comparison returns 0 iff every window has a right reply.
-/

namespace Fiemap

open CInt

/-! ## last_data -/

theorem lastDataFrom_allHoles (ms : List Char) (i : ℕ) (last : ℤ) (h : ∀ m ∈ ms, m = 'H') :
    lastDataFrom i ms last = last := by
  induction ms generalizing i last with
  | nil => rfl
  | cons m ms ih =>
    have hm : m = 'H' := h m (List.mem_cons_self ..)
    rw [lastDataFrom, if_neg (by simpa using hm)]
    exact ih _ _ fun x hx => h x (List.mem_cons_of_mem _ hx)

theorem lastDataFrom_ge (ms : List Char) (i : ℕ) (last : ℤ) (h : ∃ m ∈ ms, m ≠ 'H') :
    (i : ℤ) ≤ lastDataFrom i ms last := by
  induction ms generalizing i last with
  | nil => obtain ⟨m, hm, _⟩ := h; cases hm
  | cons m ms ih =>
    rw [lastDataFrom]
    by_cases hms : ∃ m' ∈ ms, m' ≠ 'H'
    · have := ih (i + 1) (if m ≠ 'H' then (i : ℤ) else last) hms
      push_cast at this
      omega
    · have hall : ∀ m' ∈ ms, m' = 'H' := fun m' hm' => by
        by_contra hne
        exact hms ⟨m', hm', hne⟩
      obtain ⟨m', hm', hne⟩ := h
      rcases List.mem_cons.mp hm' with rfl | hm'
      · rw [lastDataFrom_allHoles ms _ _ hall, if_pos hne]
      · exact absurd (hall m' hm') hne

/-- `last_data` is the index of an entry that is not a hole iff only holes follow it. -/
theorem lastDataFrom_eq_iff (ms : List Char) (i : ℕ) (last : ℤ) (t : ℕ) (ht : t < ms.length)
    (hne : ms[t] ≠ 'H') :
    lastDataFrom i ms last = ((i + t : ℕ) : ℤ) ↔ ∀ m ∈ ms.drop (t + 1), m = 'H' := by
  induction ms generalizing i last t with
  | nil => cases ht
  | cons m ms ih =>
    rw [lastDataFrom]
    cases t with
    | zero =>
      have hm : m ≠ 'H' := hne
      rw [if_pos hm]
      show lastDataFrom (i + 1) ms i = (i : ℤ) ↔ ∀ m ∈ ms, m = 'H'
      refine ⟨?_, ?_⟩
      · intro he
        by_contra hall
        push Not at hall
        have := lastDataFrom_ge ms (i + 1) i hall
        push_cast at this
        omega
      · exact lastDataFrom_allHoles ms _ _
    | succ t =>
      have := ih (i + 1) (if m ≠ 'H' then (i : ℤ) else last) t (by simpa using ht)
        (by simpa using hne)
      rw [show i + (t + 1) = i + 1 + t by omega]
      exact this

/-! ## the inner loop -/

section
variable {K : Kernel} {map : List Char} {blocksize : Int32}

theorem checkWindow_ok (fiemap : List Extent) (ms : List Char) (i c : ℕ)
    (h : ∀ p ∈ (ms.take (K.blocksToMap map + 1 - c)).zipIdx i,
      checkBlock K map blocksize fiemap p.2 p.1 = .ok ()) :
    checkWindow K map blocksize fiemap i c ms =
      (List.range' i (min (K.blocksToMap map + 1 - c) ms.length),
        .ok (i + min (K.blocksToMap map + 1 - c) ms.length)) := by
  induction ms generalizing i c with
  | nil => simp [checkWindow]
  | cons m ms ih =>
    rw [checkWindow]
    by_cases hc : c > K.blocksToMap map
    · have h0 : K.blocksToMap map + 1 - c = 0 := by omega
      rw [if_pos hc, h0, Nat.zero_min]
      rfl
    · have hs : K.blocksToMap map + 1 - c = K.blocksToMap map + 1 - (c + 1) + 1 := by omega
      rw [hs, List.take_succ_cons, List.zipIdx_cons, List.forall_mem_cons] at h
      have h1 : checkBlock K map blocksize fiemap i m = .ok () := h.1
      have h2 := ih (i + 1) (c + 1) h.2
      have hlen : min (K.blocksToMap map + 1 - c) (m :: ms).length
          = min (K.blocksToMap map + 1 - (c + 1)) ms.length + 1 := by
        rw [List.length_cons]
        omega
      rw [if_neg hc, h1, hlen, List.range'_succ]
      simp only [h2]
      congr 2
      omega

theorem checkWindow_error (fiemap : List Extent) (ms : List Char) (i c : ℕ)
    (h : ∃ p ∈ (ms.take (K.blocksToMap map + 1 - c)).zipIdx i,
      checkBlock K map blocksize fiemap p.2 p.1 ≠ .ok ()) :
    ∃ checked a, checkWindow K map blocksize fiemap i c ms = (checked, .error a) := by
  induction ms generalizing i c with
  | nil =>
    obtain ⟨p, hp, _⟩ := h
    simp at hp
  | cons m ms ih =>
    rw [checkWindow]
    by_cases hc : c > K.blocksToMap map
    · have h0 : K.blocksToMap map + 1 - c = 0 := by omega
      obtain ⟨p, hp, _⟩ := h
      rw [h0] at hp
      simp at hp
    · have hs : K.blocksToMap map + 1 - c = K.blocksToMap map + 1 - (c + 1) + 1 := by omega
      rw [if_neg hc]
      cases hb : checkBlock K map blocksize fiemap i m with
      | error a => exact ⟨[i], a, rfl⟩
      | ok u =>
        obtain ⟨p, hp, hne⟩ := h
        rw [hs, List.take_succ_cons, List.zipIdx_cons, List.mem_cons] at hp
        rcases hp with rfl | hp
        · exact absurd hb hne
        · obtain ⟨checked, a, he⟩ := ih (i + 1) (c + 1) ⟨p, hp, hne⟩
          exact ⟨i :: checked, a, by simp only [he]⟩

end

/-! ## the outer loop -/

section
variable (K : Kernel) (map : List Char) (blocksize : Int32)

/-- the FIEMAP call of window `w` -/
def requestOf (w : ℕ) : Request where
  fmStart := u64 (Int32.ofNat (w * K.blocksToMap map) * blocksize)
  fmLength := u64 (Int32.ofNat (K.blocksToMap map) * blocksize)
  fmFlags := fiemapFlagSync
  fmExtentCount := UInt32.ofNat (K.blocksToMap map)

/-- the entries of the map in window `w`, with their indices -/
def windowOf (w : ℕ) : List (Char × ℕ) :=
  ((map.drop (w * K.blocksToMap map)).take (K.blocksToMap map)).zipIdx (w * K.blocksToMap map)

def WindowOk (w : ℕ) : Prop :=
  ∃ fiemap, K.ioctl w (requestOf K map blocksize w) = some fiemap ∧
    checkFlags blocksize fiemap = .ok () ∧
    ∀ p ∈ windowOf K map w, checkBlock K map blocksize fiemap p.2 p.1 = .ok ()

variable {K map blocksize}

theorem blocksToMap_pos : 0 < K.blocksToMap map := Nat.succ_pos _

/-- the loop variables of round `w` -/
structure AtRound (K : Kernel) (map : List Char) (blocksize : Int32) (w rounds : ℕ)
    (mapStart : UInt64) : Prop where
  lt : w * K.blocksToMap map < map.length
  rounds : map.length ≤ w * K.blocksToMap map + rounds
  start : mapStart = u64 (Int32.ofNat (w * K.blocksToMap map) * blocksize)

theorem AtRound.next {w rounds : ℕ} {mapStart : UInt64}
    (h : AtRound K map blocksize w (rounds + 1) mapStart)
    (hlt : (w + 1) * K.blocksToMap map < map.length) :
    AtRound K map blocksize (w + 1) rounds
      (u64 (Int32.ofNat ((w + 1) * K.blocksToMap map) * blocksize)) := by
  have hr := h.rounds
  have hpos : 0 < K.blocksToMap map := blocksToMap_pos
  refine ⟨hlt, ?_, rfl⟩
  rw [Nat.succ_mul]
  omega

theorem AtRound.request {w rounds : ℕ} {mapStart : UInt64}
    (h : AtRound K map blocksize w rounds mapStart) :
    (⟨mapStart, u64 (Int32.ofNat (K.blocksToMap map) * blocksize), fiemapFlagSync,
      UInt32.ofNat (K.blocksToMap map)⟩ : Request) = requestOf K map blocksize w := by
  rw [h.start]
  rfl

/-- all of a window that is right is checked -/
theorem checkWindow_right {w : ℕ} {fiemap : List Extent}
    (h : ∀ p ∈ windowOf K map w, checkBlock K map blocksize fiemap p.2 p.1 = .ok ()) :
    checkWindow K map blocksize fiemap (w * K.blocksToMap map) 1
        (map.drop (w * K.blocksToMap map)) =
      (List.range' (w * K.blocksToMap map)
          (min (K.blocksToMap map) (map.length - w * K.blocksToMap map)),
        .ok (w * K.blocksToMap map +
          min (K.blocksToMap map) (map.length - w * K.blocksToMap map))) := by
  have hwin := @checkWindow_ok K map blocksize fiemap
    (map.drop (w * K.blocksToMap map)) (w * K.blocksToMap map) 1
    (by rw [Nat.add_sub_cancel]; exact h)
  rwa [Nat.add_sub_cancel, List.length_drop] at hwin

/-- The loop goes on behind a window that is not the last one. -/
theorem checkWindow_full {w : ℕ} {fiemap : List Extent}
    (h : ∀ p ∈ windowOf K map w, checkBlock K map blocksize fiemap p.2 p.1 = .ok ())
    (hlt : (w + 1) * K.blocksToMap map < map.length) :
    checkWindow K map blocksize fiemap (w * K.blocksToMap map) 1
        (map.drop (w * K.blocksToMap map)) =
      (List.range' (w * K.blocksToMap map) (K.blocksToMap map),
        .ok ((w + 1) * K.blocksToMap map)) := by
  have hmul : (w + 1) * K.blocksToMap map = w * K.blocksToMap map + K.blocksToMap map :=
    Nat.succ_mul _ _
  have hmin : min (K.blocksToMap map) (map.length - w * K.blocksToMap map)
      = K.blocksToMap map := by omega
  rw [checkWindow_right h, hmin, hmul]

theorem checkWindow_last {w : ℕ} {fiemap : List Extent}
    (h : ∀ p ∈ windowOf K map w, checkBlock K map blocksize fiemap p.2 p.1 = .ok ())
    (hlt : w * K.blocksToMap map < map.length)
    (hlast : ¬ (w + 1) * K.blocksToMap map < map.length) :
    checkWindow K map blocksize fiemap (w * K.blocksToMap map) 1
        (map.drop (w * K.blocksToMap map)) =
      (List.range' (w * K.blocksToMap map) (map.length - w * K.blocksToMap map),
        .ok map.length) := by
  have hmul : (w + 1) * K.blocksToMap map = w * K.blocksToMap map + K.blocksToMap map :=
    Nat.succ_mul _ _
  have hmin : min (K.blocksToMap map) (map.length - w * K.blocksToMap map)
      = map.length - w * K.blocksToMap map := by omega
  rw [checkWindow_right h, hmin, Nat.add_sub_cancel' (Nat.le_of_lt hlt)]

theorem checkWindow_wrong {w : ℕ} {fiemap : List Extent}
    (h : ¬ ∀ p ∈ windowOf K map w, checkBlock K map blocksize fiemap p.2 p.1 = .ok ()) :
    ∃ checked a, checkWindow K map blocksize fiemap (w * K.blocksToMap map) 1
      (map.drop (w * K.blocksToMap map)) = (checked, .error a) := by
  apply checkWindow_error
  rw [Nat.add_sub_cancel]
  by_contra hall
  push Not at hall
  exact h hall

theorem windowLoop_ok {w rounds : ℕ} {mapStart : UInt64}
    (hat : AtRound K map blocksize w rounds mapStart)
    (h : ∀ w', w ≤ w' → w' * K.blocksToMap map < map.length → WindowOk K map blocksize w') :
    ∃ ws, windowLoop K map blocksize (u64 (Int32.ofNat (K.blocksToMap map) * blocksize)) rounds w
        (w * K.blocksToMap map) mapStart = ⟨ws, some (.ok ())⟩ ∧
      ws.flatMap Window.checked
        = List.range' (w * K.blocksToMap map) (map.length - w * K.blocksToMap map) ∧
      ∀ x ∈ ws, ∃ w', w' * K.blocksToMap map < map.length ∧
        x.request = requestOf K map blocksize w' ∧ K.ioctl w' x.request = some x.reply := by
  induction rounds generalizing w mapStart with
  | zero =>
    have h1 := hat.lt
    have h2 := hat.rounds
    omega
  | succ rounds ih =>
    obtain ⟨fiemap, hio, hfl, hbl⟩ := h w (Nat.le_refl w) hat.lt
    rw [windowLoop]
    simp only [hat.request, hio, hfl]
    by_cases hlt : (w + 1) * K.blocksToMap map < map.length
    · -- a full window, and the loop goes on
      have hmul : (w + 1) * K.blocksToMap map = w * K.blocksToMap map + K.blocksToMap map :=
        Nat.succ_mul _ _
      simp only [checkWindow_full hbl hlt, if_pos hlt]
      obtain ⟨ws, hws, hcov, hall⟩ := ih (hat.next hlt) fun w' hw' => h w' (by omega)
      refine ⟨_, by rw [hws], ?_, ?_⟩
      · rw [List.flatMap_cons, hcov, hmul]
        have hlen : map.length - w * K.blocksToMap map
            = K.blocksToMap map + (map.length - (w * K.blocksToMap map + K.blocksToMap map)) := by
          omega
        rw [hlen, ← List.range'_append_1]
      · intro x hx
        rcases List.mem_cons.mp hx with rfl | hx
        · exact ⟨w, hat.lt, rfl, hio⟩
        · exact hall x hx
    · simp only [checkWindow_last hbl hat.lt hlt, if_neg (Nat.lt_irrefl map.length)]
      refine ⟨_, rfl, by simp, ?_⟩
      intro x hx
      rw [List.mem_singleton.mp hx]
      exact ⟨w, hat.lt, rfl, hio⟩

theorem windowLoop_error {w rounds : ℕ} {mapStart : UInt64}
    (hat : AtRound K map blocksize w rounds mapStart)
    (h : ∃ w', w ≤ w' ∧ w' * K.blocksToMap map < map.length ∧ ¬ WindowOk K map blocksize w') :
    ∃ ws a, windowLoop K map blocksize (u64 (Int32.ofNat (K.blocksToMap map) * blocksize)) rounds w
        (w * K.blocksToMap map) mapStart = ⟨ws, some (.error a)⟩ := by
  induction rounds generalizing w mapStart with
  | zero =>
    have h1 := hat.lt
    have h2 := hat.rounds
    omega
  | succ rounds ih =>
    rw [windowLoop]
    simp only [hat.request]
    cases hio : K.ioctl w (requestOf K map blocksize w) with
    | none => exact ⟨_, _, rfl⟩
    | some fiemap =>
      simp only
      cases hfl : checkFlags blocksize fiemap with
      | error a => exact ⟨_, _, rfl⟩
      | ok u =>
        simp only
        by_cases hbl : ∀ p ∈ windowOf K map w, checkBlock K map blocksize fiemap p.2 p.1 = .ok ()
        · -- this window is right, so the wrong one comes later
          obtain ⟨w', hle, hlt', hno⟩ := h
          have hne : w ≠ w' := by
            rintro rfl
            exact hno ⟨fiemap, hio, hfl, hbl⟩
          have hlt : (w + 1) * K.blocksToMap map < map.length :=
            lt_of_le_of_lt (Nat.mul_le_mul_right _ (by omega)) hlt'
          obtain ⟨ws, a, hws⟩ := ih (hat.next hlt) ⟨w', by omega, hlt', hno⟩
          simp only [checkWindow_full hbl hlt, if_pos hlt]
          exact ⟨_, a, by rw [hws]⟩
        · obtain ⟨checked, a, hc⟩ := checkWindow_wrong hbl
          simp only [hc]
          exact ⟨_, a, rfl⟩

theorem atRound_zero (hlen : 0 < map.length) : AtRound K map blocksize 0 map.length 0 := by
  refine ⟨by omega, by omega, ?_⟩
  rw [Nat.zero_mul]
  apply UInt64.toNat_inj.mp
  rw [toNat_u64 (by simp)]
  simp

/-- The comparison returns 0 iff every window is right; it always returns. -/
theorem compare_ret_iff (hm : K.malloc = true) (hlen : 0 < map.length) :
    (compareFiemapAndMap K map blocksize).ret = some 0 ↔
      ∀ w, w * K.blocksToMap map < map.length → WindowOk K map blocksize w := by
  have hat : AtRound K map blocksize 0 map.length 0 := atRound_zero hlen
  rw [compareFiemapAndMap, if_pos hm]
  refine ⟨?_, ?_⟩
  · intro hret w hw
    by_contra hno
    obtain ⟨ws, a, he⟩ := windowLoop_error hat ⟨w, Nat.zero_le w, hw, hno⟩
    rw [Nat.zero_mul] at he
    rw [he] at hret
    exact absurd hret (by simp [Outcome.ret, toRet])
  · intro h
    obtain ⟨ws, he, _⟩ := windowLoop_ok hat fun w _ => h w
    rw [Nat.zero_mul] at he
    rw [he]
    rfl

end

/-! ## the decision -/

/-- index `i` belongs to window `w` -/
def InWindow (K : Kernel) (map : List Char) (w i : ℕ) : Prop :=
  w * K.blocksToMap map ≤ i ∧ i < (w + 1) * K.blocksToMap map

/-- what a reply has to say about the blocks of its window -/
structure RightReply (K : Kernel) (map : List Char) (blocksize : Int32) (k w : ℕ)
    (reply : List Extent) : Prop where
  flags : ∀ j (h : j < reply.length), FlagsOk k reply[j] (j + 1 = reply.length)
  data : ∀ i (h : i < map.length), InWindow K map w i → map[i] = 'D' ∨ map[i] = 'P' →
    ∃ e ∈ reply, Covers k e i ∧ ((∀ m ∈ map.drop (i + 1), m = 'H') → e.has extentLast)
  hole : ∀ i (h : i < map.length), InWindow K map w i → map[i] = 'H' →
    (∀ e ∈ reply, ¬ Covers k e i) ∨
      K.checkWeirdFsHole (u64 (Int32.ofNat i * blocksize)) = true

section
variable {K : Kernel} {map : List Char} {blocksize : Int32} {k : ℕ}

theorem mem_windowOf {w : ℕ} {p : Char × ℕ} :
    p ∈ windowOf K map w ↔ ∃ h : p.2 < map.length, InWindow K map w p.2 ∧ p.1 = map[p.2] := by
  obtain ⟨m, i⟩ := p
  have hmul : (w + 1) * K.blocksToMap map = w * K.blocksToMap map + K.blocksToMap map :=
    Nat.succ_mul _ _
  unfold windowOf InWindow
  rw [List.mem_zipIdx_iff_le_and_getElem?_sub, List.getElem?_take, List.getElem?_drop]
  show w * K.blocksToMap map ≤ i ∧ _ = some m ↔ ∃ _ : i < map.length, _ ∧ m = map[i]
  refine ⟨?_, ?_⟩
  · intro hex
    obtain ⟨hle, hget⟩ := hex
    split at hget
    · next hlt =>
      rw [Nat.add_sub_cancel' hle] at hget
      obtain ⟨hi, he⟩ := List.getElem?_eq_some_iff.mp hget
      exact ⟨hi, ⟨hle, by omega⟩, he.symm⟩
    · cases hget
  · intro hall
    obtain ⟨hi, ⟨hle, hlt⟩, rfl⟩ := hall
    refine ⟨hle, ?_⟩
    rw [if_pos (by omega), Nat.add_sub_cancel' hle, List.getElem?_eq_getElem hi]

/-- the decision about one block -/
theorem checkBlock_ok_iff (hbs : blocksize.toInt = ((2 ^ k : ℕ) : ℤ)) {reply : List Extent}
    (hal : Aligned k reply) {i : ℕ} (hi : i < map.length) (hfit : i * 2 ^ k < 2 ^ 31)
    (hmap : map[i] = 'D' ∨ map[i] = 'H' ∨ map[i] = 'P') :
    checkBlock K map blocksize reply i map[i] = .ok () ↔
      (map[i] = 'D' ∨ map[i] = 'P' → ∃ e ∈ reply, Covers k e i ∧
        ((∀ m ∈ map.drop (i + 1), m = 'H') → e.has extentLast)) ∧
      (map[i] = 'H' → (∀ e ∈ reply, ¬ Covers k e i) ∨
        K.checkWeirdFsHole (u64 (Int32.ofNat i * blocksize)) = true) := by
  have hpow := Nat.two_pow_pos k
  have hi31 : i < 2 ^ 31 := lt_of_le_of_lt (Nat.le_mul_of_pos_right i hpow) hfit
  have hoff : (u64 (Int32.ofNat i * blocksize)).toNat = i * 2 ^ k := toNat_u64_mul hbs hi31 hfit
  have hk : (2 : ℕ) ^ k < 2 ^ 31 := by
    have := blocksize.toInt_lt
    omega
  have hend : (i + 1) * 2 ^ k < 2 ^ 64 := by
    rw [Nat.succ_mul]
    omega
  have hlast (hne : map[i] ≠ 'H') : decide (lastDataFrom 0 map K.lastData = (i : ℤ)) = true ↔
      ∀ m ∈ map.drop (i + 1), m = 'H' := by
    have := lastDataFrom_eq_iff map 0 K.lastData i hi hne
    rw [Nat.zero_add] at this
    rw [decide_eq_true_iff]
    exact this
  rcases hmap with hm | hm | hm
  · have hd := checkData_ok_iff hbs (decide (lastDataFrom 0 map K.lastData = (i : ℤ))) false hoff
      hend hal
    rw [hlast (by rw [hm]; decide)] at hd
    unfold checkBlock
    rw [hm]
    simpa using hd
  · have hh := checkHole_ok_iff hbs K.checkWeirdFsHole hoff hend hal
    unfold checkBlock
    rw [hm]
    simpa using hh
  · have hd := checkData_ok_iff hbs (decide (lastDataFrom 0 map K.lastData = (i : ℤ))) true hoff
      hend hal
    rw [hlast (by rw [hm]; decide)] at hd
    unfold checkBlock
    rw [hm]
    simpa using hd

theorem windowOk_iff (hbs : blocksize.toInt = ((2 ^ k : ℕ) : ℤ))
    (hmap : ∀ m ∈ map, m = 'D' ∨ m = 'H' ∨ m = 'P') (hfit : ∀ i < map.length, i * 2 ^ k < 2 ^ 31)
    {w : ℕ} {reply : List Extent}
    (hio : K.ioctl w (requestOf K map blocksize w) = some reply) (hal : Aligned k reply) :
    WindowOk K map blocksize w ↔ RightReply K map blocksize k w reply := by
  have hblock (i : ℕ) (hi : i < map.length) := checkBlock_ok_iff (K := K) hbs hal hi (hfit i hi)
    (hmap _ (List.getElem_mem hi))
  refine ⟨?_, ?_⟩
  · intro hex
    obtain ⟨reply', hio', hfl, hbl⟩ := hex
    obtain rfl : reply = reply' := Option.some.inj (hio.symm.trans hio')
    refine ⟨(checkFlags_ok_iff hbs reply).mp hfl, ?_, ?_⟩
    · intro i hi hw
      exact ((hblock i hi).mp (hbl (map[i], i) (mem_windowOf.mpr ⟨hi, hw, rfl⟩))).1
    · intro i hi hw
      exact ((hblock i hi).mp (hbl (map[i], i) (mem_windowOf.mpr ⟨hi, hw, rfl⟩))).2
  · intro h
    refine ⟨reply, hio, (checkFlags_ok_iff hbs reply).mpr h.flags, ?_⟩
    rintro ⟨m, i⟩ hp
    obtain ⟨hi, hw, hm⟩ := mem_windowOf.mp hp
    show checkBlock K map blocksize reply i m = .ok ()
    rw [show m = map[i] from hm]
    exact (hblock i hi).mpr ⟨h.data i hi hw, h.hole i hi hw⟩

/-- The comparison of a map with a sequence of aligned replies returns 0 iff they are right. -/
theorem compare_decides (hm : K.malloc = true) (hlen : 0 < map.length)
    (hmap : ∀ m ∈ map, m = 'D' ∨ m = 'H' ∨ m = 'P')
    (hbs : blocksize.toInt = ((2 ^ k : ℕ) : ℤ)) (hfit : ∀ i < map.length, i * 2 ^ k < 2 ^ 31)
    (replies : ℕ → List Extent)
    (hio : ∀ w, w * K.blocksToMap map < map.length →
      K.ioctl w (requestOf K map blocksize w) = some (replies w))
    (hal : ∀ w, w * K.blocksToMap map < map.length → Aligned k (replies w)) :
    (compareFiemapAndMap K map blocksize).ret = some 0 ↔
      ∀ w, w * K.blocksToMap map < map.length → RightReply K map blocksize k w (replies w) := by
  rw [compare_ret_iff hm hlen]
  apply forall_congr'
  intro w
  apply imp_congr_right
  intro hw
  exact windowOk_iff hbs hmap hfit (hio w hw) (hal w hw)

end

/-! A map of a data block, a preallocated block and a hole, in two windows. -/

def dphMap : List Char := ['D', 'P', 'H']

theorem mem_dphMap : ∀ m ∈ dphMap, m = 'D' ∨ m = 'H' ∨ m = 'P' := by
  intro m hm
  simp only [dphMap, List.mem_cons, List.not_mem_nil, or_false] at hm
  tauto

def dphReply (w : ℕ) : List Extent :=
  if w = 0 then
    [⟨0, 0x10000, 4096, 0⟩, ⟨4096, 0x20000, 4096, extentUnwritten ||| extentLast⟩]
  else []

def dphKernel : Kernel where
  malloc := true
  random := 4
  lastData := -1
  ioctl w _ := some (dphReply w)
  checkWeirdFsHole _ := false

theorem dphReply_aligned (w : ℕ) : Aligned 12 (dphReply w) := by
  unfold dphReply
  split
  · refine ⟨by simp, ?_⟩
    intro e he
    rcases List.mem_cons.mp he with rfl | he
    · exact ⟨by decide, by decide, by decide, by decide⟩
    · rw [List.mem_singleton.mp he]
      exact ⟨by decide, by decide, by decide, by decide⟩
  · exact ⟨List.Pairwise.nil, fun e he => by cases he⟩

theorem compare_decides_dph :
    (compareFiemapAndMap dphKernel dphMap 4096).ret = some 0 ∧
      ((compareFiemapAndMap dphKernel dphMap 4096).ret = some 0 ↔
        ∀ w, w * dphKernel.blocksToMap dphMap < dphMap.length →
          RightReply dphKernel dphMap 4096 12 w (dphReply w)) :=
  ⟨by decide +kernel, compare_decides rfl (by decide) mem_dphMap (by decide +kernel) (by decide +kernel)
    dphReply (fun _ _ => rfl) fun w _ => dphReply_aligned w⟩

end Fiemap
