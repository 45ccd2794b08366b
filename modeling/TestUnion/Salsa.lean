import TestUnion.InPlace
import Mathlib.Data.Finite.Prod
import Mathlib.Data.List.FinRange

/-!
# salsa_scrambler: the stream of buffers

* `Statement`       one of the 16 assignments of `salsa_scrambler`, to a cell that it does not read
                    otherwise;
* `scramble`        all of them, the map that is called `F` here;
* `salsaScrambler`  the function, with both arrays that it changes;
* `Main`, `round`   the two buffers of `main` with the roles that they have, and a round of its loop;
* `written`         the buffers that are written;
* `written_eq_iterate`   chunk by chunk they are the iterates of `scramble` at the seed;
* `scramble_permutes`   no two states are scrambled to the same one.
-/

namespace Salsa

open Function InPlace

/-! ## the function -/

abbrev Chunk := Fin 16 → UInt32

def R (a b : UInt32) : UInt32 := (a <<< b) ||| (a >>> (32 - b))

/-- `x[target] ^= R(x[left] + x[right], shift)` -/
structure Statement where
  target : Fin 16
  left : Fin 16
  right : Fin 16
  shift : UInt32
  left_ne : left ≠ target := by decide
  right_ne : right ≠ target := by decide

def Statement.assign (s : Statement) : Assign (Fin 16) UInt32 where
  target := s.target
  value x := R (x s.left + x s.right) s.shift
  frame x v := by rw [update_of_ne s.left_ne, update_of_ne s.right_ne]

def statements : List Statement :=
  [.mk 4 0 12 7, .mk 8 4 0 9, .mk 12 8 4 13, .mk 0 12 8 18,
    .mk 9 5 1 7, .mk 13 9 5 9, .mk 1 13 9 13, .mk 5 1 13 18,
    .mk 14 10 6 7, .mk 2 14 10 9, .mk 6 2 14 13, .mk 10 6 2 18,
    .mk 3 15 11 7, .mk 7 3 15 9, .mk 11 7 3 13, .mk 15 11 7 18]

def scramble : Chunk → Chunk := runAll (fun x y => x ^^^ y) (statements.map Statement.assign)

/-- `out` and `x` after the call -/
def salsaScrambler (out x : Chunk) : Chunk × Chunk :=
  let x := scramble x
  ((List.finRange 16).foldl (fun out i => update out i (x i)) out, x)

/-! ## the loop of main -/

def chunkSize : ℕ := 2048

abbrev Buffer := Fin chunkSize → UInt32

/-- the 16 words at `buf + 16*i` -/
def chunk (buf : Buffer) (i : Fin (chunkSize / 16)) : Chunk :=
  fun j => buf ⟨16 * i + j, by have := i.2; have := j.2; unfold chunkSize at *; omega⟩

def setChunk (buf : Buffer) (i : Fin (chunkSize / 16)) (c : Chunk) : Buffer :=
  fun k => if k / 16 = (i : ℕ) then c ⟨k % 16, Nat.mod_lt _ (by decide)⟩ else buf k

/-- `buf false` is `bufA` and `buf true` is `bufB`; `input` says which one `input` points to, and
`output` points to the other one. -/
structure Main where
  buf : Bool → Buffer
  input : Bool

/-- the call for the chunk `i` -/
def scrambleChunk (s : Main) (i : Fin (chunkSize / 16)) : Main :=
  let (out, x) := salsaScrambler (chunk (s.buf (!s.input)) i) (chunk (s.buf s.input) i)
  { s with
    buf := update (update s.buf (!s.input) (setChunk (s.buf (!s.input)) i out)) s.input
      (setChunk (s.buf s.input) i x) }

/-- the buffer that a round writes, and the state after the swap -/
def round (s : Main) : Buffer × Main :=
  let s := (List.finRange (chunkSize / 16)).foldl scrambleChunk s
  (s.buf (!s.input), { s with input := !s.input })

/-- `input` is `bufA`, and nothing is known of `bufB`. -/
def start (seed bufB : Buffer) : Main where
  buf b := if b = true then bufB else seed
  input := false

/-- the buffer that is written after `k` others -/
def written (seed bufB : Buffer) (k : ℕ) : Buffer :=
  (round ((fun s => (round s).2)^[k] (start seed bufB))).1

/-! ## what they do -/

theorem foldl_update {α : Type} (x out : Fin 16 → α) :
    (List.finRange 16).foldl (fun out i => update out i (x i)) out = x := by
  have key (l : List (Fin 16)) (out : Fin 16 → α) (j : Fin 16) :
      l.foldl (fun out i => update out i (x i)) out j = if j ∈ l then x j else out j := by
    induction l generalizing out with
    | nil => rfl
    | cons i l ih =>
      rw [List.foldl_cons, ih]
      by_cases hj : j ∈ l
      · rw [if_pos hj, if_pos (List.mem_cons_of_mem _ hj)]
      · rw [if_neg hj]
        by_cases hi : j = i
        · subst hi
          rw [update_self, if_pos List.mem_cons_self]
        · rw [update_of_ne hi, if_neg (by simp [hi, hj])]
  funext j
  rw [key, if_pos (List.mem_finRange j)]

/-- `out` becomes a copy of `x`. -/
theorem salsaScrambler_eq (out x : Chunk) : salsaScrambler out x = (scramble x, scramble x) := by
  show ((List.finRange 16).foldl (fun out i => update out i (scramble x i)) out, scramble x) = _
  rw [foldl_update]

section
variable {buf : Buffer} {i j : Fin (chunkSize / 16)} {c : Chunk}

theorem chunk_setChunk_self : chunk (setChunk buf i c) i = c := by
  funext k
  have hdiv : (16 * (i : ℕ) + k) / 16 = i := by omega
  have hmod : (16 * (i : ℕ) + k) % 16 = k := by omega
  show (if (16 * (i : ℕ) + k) / 16 = (i : ℕ) then c ⟨(16 * (i : ℕ) + k) % 16, _⟩ else _) = _
  rw [if_pos hdiv]
  exact congrArg c (Fin.ext hmod)

theorem chunk_setChunk_of_ne (h : j ≠ i) : chunk (setChunk buf i c) j = chunk buf j := by
  funext k
  have hdiv : (16 * (j : ℕ) + k) / 16 = j := by omega
  show (if (16 * (j : ℕ) + k) / 16 = (i : ℕ) then _ else _) = _
  rw [if_neg]
  · rfl
  · rw [hdiv]
    exact fun e => h (Fin.ext e)

end

/-- The calls for some chunks of both buffers, each made once. -/
theorem foldl_scrambleChunk {l : List (Fin (chunkSize / 16))} (hl : l.Nodup) (s : Main) :
    (l.foldl scrambleChunk s).input = s.input ∧
      ∀ i, chunk ((l.foldl scrambleChunk s).buf (!s.input)) i =
          (if i ∈ l then scramble (chunk (s.buf s.input) i) else chunk (s.buf (!s.input)) i) ∧
        chunk ((l.foldl scrambleChunk s).buf s.input) i =
          if i ∈ l then scramble (chunk (s.buf s.input) i) else chunk (s.buf s.input) i := by
  induction l generalizing s with
  | nil => exact ⟨rfl, fun _ => ⟨rfl, rfl⟩⟩
  | cons k l ih =>
    obtain ⟨hk, hnodup⟩ := List.nodup_cons.mp hl
    have hinput : (scrambleChunk s k).input = s.input := rfl
    have hout : (scrambleChunk s k).buf (!s.input) =
        setChunk (s.buf (!s.input)) k (scramble (chunk (s.buf s.input) k)) := by
      show update (update s.buf (!s.input) (setChunk _ k (salsaScrambler (chunk (s.buf (!s.input)) k)
        (chunk (s.buf s.input) k)).1)) s.input _ (!s.input) = _
      rw [update_of_ne (by simp), update_self, salsaScrambler_eq]
    have hin : (scrambleChunk s k).buf s.input =
        setChunk (s.buf s.input) k (scramble (chunk (s.buf s.input) k)) := by
      show update (update s.buf (!s.input) _) s.input (setChunk (s.buf s.input) k
        (salsaScrambler (chunk (s.buf (!s.input)) k) (chunk (s.buf s.input) k)).2) s.input = _
      rw [update_self, salsaScrambler_eq]
    obtain ⟨hinput', hbufs⟩ := ih hnodup (scrambleChunk s k)
    rw [hinput] at hinput' hbufs
    refine ⟨hinput', fun i => ?_⟩
    obtain ⟨h1, h2⟩ := hbufs i
    rw [List.foldl_cons, h1, h2, hout, hin]
    by_cases hi : i = k
    · subst hi
      rw [if_neg hk, if_neg hk, if_pos List.mem_cons_self, if_pos List.mem_cons_self,
        chunk_setChunk_self, chunk_setChunk_self]
      exact ⟨rfl, rfl⟩
    · rw [chunk_setChunk_of_ne hi, chunk_setChunk_of_ne hi]
      have hmem : i ∈ k :: l ↔ i ∈ l := by simp [hi]
      rw [if_congr hmem rfl rfl, if_congr hmem rfl rfl]
      exact ⟨rfl, rfl⟩

/-- A round writes the scrambled input, and the next round takes it as its input. -/
theorem round_chunk (s : Main) (i : Fin (chunkSize / 16)) :
    chunk (round s).1 i = scramble (chunk (s.buf s.input) i) ∧
      (round s).2.buf (round s).2.input = (round s).1 := by
  obtain ⟨hinput, hbufs⟩ := foldl_scrambleChunk (List.nodup_finRange _) s
  have hout : (round s).1 = ((List.finRange _).foldl scrambleChunk s).buf (!s.input) := by
    unfold round
    rw [← hinput]
  refine ⟨?_, rfl⟩
  rw [hout, (hbufs i).1, if_pos (List.mem_finRange i)]

section
variable (seed bufB : Buffer)

/-- The input of a round is the buffer that was written before it. -/
theorem input_chunk (k : ℕ) (i : Fin (chunkSize / 16)) :
    chunk (((fun s => (round s).2)^[k] (start seed bufB)).buf
      ((fun s => (round s).2)^[k] (start seed bufB)).input) i = scramble^[k] (chunk seed i) := by
  induction k with
  | zero => rfl
  | succ k ih =>
    rw [iterate_succ_apply', (round_chunk _ i).2, (round_chunk _ i).1, ih, iterate_succ_apply']

theorem written_chunk (k : ℕ) (i : Fin (chunkSize / 16)) :
    chunk (written seed bufB k) i = scramble^[k + 1] (chunk seed i) := by
  unfold written
  rw [(round_chunk _ i).1, input_chunk, iterate_succ_apply']

/-- `f` for the 16 words of each chunk -/
def mapChunks (f : Chunk → Chunk) (buf : Buffer) : Buffer :=
  fun k => f (chunk buf ⟨k / 16, by have := k.2; unfold chunkSize at *; omega⟩)
    ⟨k % 16, Nat.mod_lt _ (by decide)⟩

/-- The buffer that is written after `k` others is the seed, scrambled `k + 1` times. -/
theorem written_eq_iterate (k : ℕ) :
    written seed bufB k = mapChunks scramble^[k + 1] seed := by
  funext j
  have hword : written seed bufB k j = chunk (written seed bufB k)
      ⟨j / 16, by have := j.2; unfold chunkSize at *; omega⟩ ⟨j % 16, Nat.mod_lt _ (by decide)⟩ := by
    show _ = written seed bufB k ⟨16 * (j / 16) + j % 16, _⟩
    congr 1
    exact Fin.ext (Nat.div_add_mod j 16).symm
  rw [hword, written_chunk]
  rfl

end

/-! ## no state is lost -/

theorem bijective_scramble : Bijective scramble :=
  runAll_bijective (fun x y => by rw [UInt32.xor_assoc, UInt32.xor_self, UInt32.xor_zero]) _

instance finite_uInt32 : Finite UInt32 :=
  Finite.of_injective UInt32.toFin fun _ _ h => UInt32.toFin_inj.mp h

/-- `scramble` is a bijection, so that different chunks of the seed stay different and the chunks
that are written come back. -/
theorem scramble_permutes :
    Bijective scramble ∧
    (∀ seed seed' bufB bufB' k i j, chunk (written seed bufB k) i = chunk (written seed' bufB' k) j ↔
      chunk seed i = chunk seed' j) ∧
    ∀ seed bufB i, ∃ p > 0, ∀ k,
      chunk (written seed bufB (k + p)) i = chunk (written seed bufB k) i := by
  have hinj := bijective_scramble.injective
  refine ⟨bijective_scramble, ?_, ?_⟩
  · intro seed seed' bufB bufB' k i j
    rw [written_chunk, written_chunk]
    exact (hinj.iterate (k + 1)).eq_iff
  · intro seed bufB i
    obtain ⟨p, hpos, hp⟩ := purely_periodic hinj (chunk seed i)
    refine ⟨p, hpos, fun k => ?_⟩
    have hidx : k + p + 1 = k + 1 + p := by omega
    rw [written_chunk, written_chunk, hidx, hp]

end Salsa
