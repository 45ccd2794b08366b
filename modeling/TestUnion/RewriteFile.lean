import Mathlib.Data.List.Infix
import Mathlib.Data.UInt
import TestUnion.Lts
import TestUnion.SeekFile

/-!
# rewrite-file: any number of instances on one file

* `Pc`, `Proc`, `St`   where an instance is, its variables with the offset of its `F`, and the file;
* `Step`            one system call of one instance; `sysread` and `syswrite` may be short or fail;
* `Holds`           what an instance has read is what the file has there;
* `file_kept`       no instance ever changes the file, and one that has ended has written ten times as
                    often as the file has blocks.
-/

namespace RewriteFile

open Lts

abbrev Bytes := List UInt8

inductive Pc where
  | size
  | top
  | seekRead (bi : ℕ)
  | read (bi : ℕ)
  | seekWrite (bi : ℕ) (bdi : Bytes)
  | write (bdi : Bytes)
  | ended

structure Proc where
  pc : Pc
  blocks : ℕ
  count : ℕ
  pos : ℕ
  /-- the calls of `syswrite` so far -/
  writes : ℕ

structure St (ι : Type*) where
  bytes : Bytes
  proc : ι → Proc

section
variable {ι : Type*} [DecidableEq ι]

def St.set (s : St ι) (i : ι) (p : Proc) : St ι := { s with proc := Function.update s.proc i p }

/-- the file as the instance sees it -/
def St.file (s : St ι) (i : ι) : SeekFile UInt8 := ⟨s.bytes, (s.proc i).pos⟩

/-- A call that fails reads or writes nothing.  The part for `fsync` is switched off. -/
inductive Step : St ι → ι → St ι → Prop
  | size {s : St ι} {i} (pc : (s.proc i).pc = .size) :
    Step s i (s.set i { s.proc i with
      pc := .top
      blocks := s.bytes.length / 4096
      count := s.bytes.length / 4096 * 10 })
  | pick {s : St ι} {i k} (pc : (s.proc i).pc = .top) (count : (s.proc i).count ≠ 0)
      (rand : k < (s.proc i).blocks) :
    Step s i (s.set i { s.proc i with pc := .seekRead (4096 * k), count := (s.proc i).count - 1 })
  | stop {s : St ι} {i} (pc : (s.proc i).pc = .top) (count : (s.proc i).count = 0) :
    Step s i (s.set i { s.proc i with pc := .ended })
  | seekRead {s : St ι} {i bi} (pc : (s.proc i).pc = .seekRead bi) :
    Step s i (s.set i { s.proc i with pc := .read bi, pos := bi })
  | read {s : St ι} {i bi bdi} (pc : (s.proc i).pc = .read bi)
      (got : bdi <+: ((s.file i).read 4096).1) :
    Step s i (s.set i { s.proc i with
      pc := .seekWrite bi bdi
      pos := (s.proc i).pos + bdi.length })
  | seekWrite {s : St ι} {i bi bdi} (pc : (s.proc i).pc = .seekWrite bi bdi) :
    Step s i (s.set i { s.proc i with pc := .write bdi, pos := bi })
  | write {s : St ι} {i} {bdi data : Bytes} (pc : (s.proc i).pc = .write bdi) (put : data <+: bdi) :
    Step s i ({ s with bytes := ((s.file i).write data).bytes }.set i { s.proc i with
      pc := .top
      pos := ((s.file i).write data).pos
      writes := (s.proc i).writes + 1 })

def init (bytes : Bytes) : St ι := ⟨bytes, fun _ => ⟨.size, 0, 0, 0, 0⟩⟩

/-! ## what was read is there -/

/-- what an instance has, by where it is -/
def Holds (bytes : Bytes) (p : Proc) : Pc → Prop
  | .size => p.writes = 0
  | .top => p.blocks = bytes.length / 4096 ∧ p.count + p.writes = bytes.length / 4096 * 10
  | .seekRead _ => p.blocks = bytes.length / 4096 ∧
      p.count + 1 + p.writes = bytes.length / 4096 * 10
  | .read bi => p.pos = bi ∧ p.blocks = bytes.length / 4096 ∧
      p.count + 1 + p.writes = bytes.length / 4096 * 10
  | .seekWrite bi bdi => bdi <+: block bytes bi 4096 ∧ p.blocks = bytes.length / 4096 ∧
      p.count + 1 + p.writes = bytes.length / 4096 * 10
  | .write bdi => bdi <+: block bytes p.pos 4096 ∧ p.blocks = bytes.length / 4096 ∧
      p.count + 1 + p.writes = bytes.length / 4096 * 10
  | .ended => p.writes = bytes.length / 4096 * 10

structure Inv (bytes : Bytes) (s : St ι) : Prop where
  same : s.bytes = bytes
  holds : ∀ i, Holds bytes (s.proc i) (s.proc i).pc

variable {bytes : Bytes} {s s' : St ι} {i : ι} {tr : List (St ι × ι × St ι)}

/-- A block, or the beginning of one, that is written where it was read. -/
theorem write_same {f : SeekFile UInt8} {data : Bytes} {n : ℕ}
    (h : data <+: block f.bytes f.pos n) : (f.write data).bytes = f.bytes := by
  have hle := h.length_le
  by_cases hnil : data = []
  · rw [hnil]
    rfl
  · have hpos := List.length_pos_of_ne_nil hnil
    unfold block at h hle
    rw [List.length_take, List.length_drop] at hle
    apply SeekFile.write_block
    · omega
    · have htake := List.prefix_iff_eq_take.mp h
      rw [List.take_take, Nat.min_eq_left (by omega)] at htake
      exact htake

theorem Inv.set (h : Inv bytes s) {p : Proc} (hp : Holds bytes p p.pc) :
    Inv bytes (s.set i p) := by
  refine ⟨h.same, fun j => ?_⟩
  show Holds bytes (Function.update s.proc i p j) (Function.update s.proc i p j).pc
  by_cases hj : j = i
  · rw [hj, Function.update_self]
    exact hp
  · rw [Function.update_of_ne hj]
    exact h.holds j

theorem Inv.step (h : Inv bytes s) (hst : Step s i s') : Inv bytes s' := by
  have hi := h.holds i
  have hbytes := h.same
  cases hst with
  | size pc =>
    rw [pc] at hi
    apply h.set
    have hwrites : (s.proc i).writes = 0 := hi
    show _ ∧ _ + (s.proc i).writes = _
    rw [hbytes, hwrites]
    exact ⟨rfl, rfl⟩
  | pick pc count rand =>
    rw [pc] at hi
    apply h.set
    refine ⟨hi.1, ?_⟩
    show (s.proc i).count - 1 + 1 + (s.proc i).writes = _
    rw [Nat.sub_add_cancel (Nat.pos_of_ne_zero count)]
    exact hi.2
  | stop pc count =>
    rw [pc] at hi
    apply h.set
    have hsum := hi.2
    rw [count, Nat.zero_add] at hsum
    exact hsum
  | seekRead pc =>
    rw [pc] at hi
    exact h.set ⟨rfl, hi⟩
  | read pc got =>
    rw [pc] at hi
    obtain ⟨hpos, hrest⟩ := hi
    have hgot : _ <+: block s.bytes (s.proc i).pos 4096 := got
    rw [hpos, hbytes] at hgot
    exact h.set ⟨hgot, hrest⟩
  | seekWrite pc =>
    rw [pc] at hi
    exact h.set hi
  | @write bdi data pc put =>
    rw [pc] at hi
    obtain ⟨hbdi, hblocks, hsum⟩ := hi
    have hsame : ((s.file i).write data).bytes = bytes := by
      rw [← hbytes]
      apply write_same (n := 4096)
      show data <+: block s.bytes (s.proc i).pos 4096
      rw [hbytes]
      exact put.trans hbdi
    have hinv : Inv bytes { s with bytes := ((s.file i).write data).bytes } := ⟨hsame, h.holds⟩
    apply hinv.set
    refine ⟨hblocks, ?_⟩
    show (s.proc i).count + ((s.proc i).writes + 1) = _
    omega

/-- Whatever instances run at the same time, however their calls are interleaved, whichever blocks
they draw and however short their reads and writes are. -/
theorem file_kept (hr : Run Step (init bytes : St ι) tr s) :
    s.bytes = bytes ∧ (∀ x ∈ tr, x.2.2.bytes = bytes) ∧
      ∀ i, (s.proc i).pc = .ended → (s.proc i).writes = 10 * (bytes.length / 4096) := by
  have hinit : Inv bytes (init bytes : St ι) := ⟨rfl, fun _ => rfl⟩
  have hstep : ∀ (s : St ι) i t, Inv bytes s → Step s i t → Inv bytes t :=
    fun _ _ _ h hst => h.step hst
  have hs := hr.inv hstep hinit
  refine ⟨hs.same, fun x hx => (hr.steps_inv hstep hinit x hx).2.2.same, ?_⟩
  intro i hended
  have hi := hs.holds i
  rw [hended] at hi
  rw [Nat.mul_comm]
  exact hi

@[irreducible] def oneBlock : Bytes := 7 :: List.replicate 4095 0

theorem length_oneBlock : oneBlock.length = 4096 := by
  unfold oneBlock
  rw [List.length_cons, List.length_replicate]

theorem block_oneBlock : [7] <+: block oneBlock 0 4096 := by
  unfold block oneBlock
  rw [List.drop_zero, List.take_succ_cons]
  exact ⟨_, rfl⟩

/-- Two instances write one byte each; the second one has read before the first one writes. -/
theorem file_kept_two : ∃ (tr : List (St Bool × Bool × St Bool)) (s : St Bool),
    Run Step (init oneBlock) tr s ∧ (s.proc true).writes = 1 ∧ (s.proc false).writes = 1 ∧
      s.bytes = oneBlock := by
  have hblocks : 0 < oneBlock.length / 4096 := by
    rw [length_oneBlock]
    decide
  have hcount : oneBlock.length / 4096 * 10 ≠ 0 := by
    rw [length_oneBlock]
    decide
  have h1 := Run.snoc Run.nil (Step.size (s := init oneBlock) (i := true) rfl)
  have h2 := h1.snoc (Step.size (i := false) rfl)
  have h3 := h2.snoc (Step.pick (i := true) (k := 0) rfl hcount hblocks)
  have h4 := h3.snoc (Step.pick (i := false) (k := 0) rfl hcount hblocks)
  have h5 := h4.snoc (Step.seekRead (i := true) rfl)
  have h6 := h5.snoc (Step.seekRead (i := false) rfl)
  have h7 := h6.snoc (Step.read (i := true) rfl block_oneBlock)
  have h8 := h7.snoc (Step.read (i := false) rfl block_oneBlock)
  have h9 := h8.snoc (Step.seekWrite (i := true) rfl)
  have h10 := h9.snoc (Step.seekWrite (i := false) rfl)
  have h11 := h10.snoc (Step.write (i := true) rfl (List.prefix_refl _))
  have h12 := h11.snoc (Step.write (i := false) rfl (List.prefix_refl _))
  exact ⟨_, _, h12, rfl, rfl, (file_kept h12).1⟩

end

end RewriteFile
