import TestUnion.Packed
import Mathlib.Algebra.Group.Nat.Defs

/-!
# fiemap.py

* `structFiemap`, `structFiemapExtent`   the formats of the two structures;
* `parseFiemapExtents`, `parseFiemap`    what is read of an answer;
* `fiemapIoctl`, `fiemap`   the two calls, the first one for the number of extents;
* `FiemapExtent`, `answer`  the structure of the kernel, and what it writes into a buffer;
* `parse_array`     an array of structures is read one by one;
* `fiemap_eq`       the result for two answers;
* `Reports`         the extents of the result are those that were filled in;
* `reports_iff`     this is so when the second call fills in as many as the first one has counted.
-/

namespace FiemapPy

open Packed

/-! ## the program -/

def structFiemap : Format := [.q, .q, .l, .l, .l, .l]

def structFiemapExtent : Format := [.q, .q, .q, .q, .q, .l, .l, .l, .l]

def sf : ℕ := calcsize structFiemap

def sfe : ℕ := calcsize structFiemapExtent

def flags : List (ℕ × String) :=
  [(0x2, "unknown"), (0x4, "delalloc"), (0x80, "encrypted"), (0x100, "not_aligned"),
    (0x200, "inline"), (0x400, "tail_packed"), (0x800, "unwritten"), (0x1000, "merged"), (0x1, "eof")]

/-- the dictionary `_flags` in the order of its keys -/
abbrev Keys := {keys : List (ℕ × String) // keys.Perm flags}

structure Entry where
  logical : ℕ
  physical : ℕ
  length : ℕ
  flags : String
  deriving DecidableEq

structure Info where
  start : ℕ
  length : ℕ
  flags : ℕ
  mappedExtents : ℕ
  extentCount : ℕ
  extents : List Entry
  deriving DecidableEq

section
variable (o : Order) (keys : Keys) (shift : ℕ)

def entry (x : List ℕ) : Entry :=
  { logical := x.getD 0 0
    physical := x.getD 1 0
    length := x.getD 2 0
    flags := " ".intercalate ((keys.1.filter fun z => x.getD 5 0 &&& z.1 > 0).map (·.2)) }

/-- `struct.error` is raised when the text ends too early. -/
def extentAt (string : List UInt8) (e : ℕ) : Option Entry :=
  (unpack o structFiemapExtent ((string.drop (e * sfe)).take sfe)).map fun x =>
    entry keys (x.map fun v => v >>> shift)

def parseFiemapExtents (string : List UInt8) (num : ℕ) : Option (List Entry) :=
  (List.range num).mapM (extentAt o keys shift string)

/-- The number of the extents is taken from `fm_extent_count`. -/
def parseFiemap (string : List UInt8) : Option Info := do
  let res ← unpack o structFiemap (string.take sf)
  let extents ← parseFiemapExtents o keys shift (string.drop sf) (res.getD 4 0)
  some ⟨res.getD 0 0, res.getD 1 0, res.getD 2 0, res.getD 3 0, res.getD 4 0, extents⟩

def fiemapIoctl (ioctl : List UInt8 → Option (List UInt8)) (numExt : ℕ) : Option (List UInt8) := do
  let buf ← pack o structFiemap [0, 0xffffffffffffffff, 0, 0, numExt, 0]
  ioctl (buf ++ List.replicate (numExt * sfe) 0)

/-- `first` and `second` answer the two calls. -/
def fiemap (first second : List UInt8 → Option (List UInt8)) (getExtents : Bool) :
    Option (Info × List UInt8) := do
  let res ← fiemapIoctl o first 0
  let res ← (if getExtents = true then
      (parseFiemap o keys shift res).bind fun info => fiemapIoctl o second info.mappedExtents
    else some res)
  let info ← parseFiemap o keys shift res
  some (info, res)

end

/-! ## the kernel -/

structure FiemapExtent where
  logical : UInt64
  physical : UInt64
  length : UInt64
  reserved64 : UInt64 × UInt64
  flags : UInt32
  reserved : UInt32 × UInt32 × UInt32

def FiemapExtent.values (e : FiemapExtent) : List ℕ :=
  [e.logical.toNat, e.physical.toNat, e.length.toNat, e.reserved64.1.toNat, e.reserved64.2.toNat,
    e.flags.toNat, e.reserved.1.toNat, e.reserved.2.1.toNat, e.reserved.2.2.toNat]

def FiemapExtent.bytes (o : Order) (e : FiemapExtent) : List UInt8 :=
  (pack o structFiemapExtent e.values).getD []

/-- The header comes back with the flags and the number of mapped extents, and the extents are
written behind it. -/
def answer (o : Order) (flags mapped : UInt32) (es : List FiemapExtent) (buf : List UInt8) :
    Option (List UInt8) := do
  let h ← unpack o structFiemap (buf.take sf)
  let header ← pack o structFiemap
    [h.getD 0 0, h.getD 1 0, flags.toNat, mapped.toNat, h.getD 4 0, h.getD 5 0]
  some (header ++ (es.flatMap (FiemapExtent.bytes o) ++ buf.drop (sf + es.length * sfe)))

/-- The result has the extents that were filled in, one for one. -/
def Reports (out : Option (Info × List UInt8)) (es : List FiemapExtent) : Prop :=
  ∃ info res, out = some (info, res) ∧
    info.extents.map (fun x => (x.logical, x.physical, x.length)) =
      es.map fun e => (e.logical.toNat, e.physical.toNat, e.length.toNat)

section
variable {o : Order} {keys : Keys} {shift num : ℕ} {es : List FiemapExtent} {rest : List UInt8}

theorem pack_values (e : FiemapExtent) : pack o structFiemapExtent e.values = some (e.bytes o) := by
  have hfit : List.Forall₂ (fun (c : Code) n => n < 256 ^ c.size) structFiemapExtent e.values := by
    have hq : ∀ x : UInt64, x.toNat < 256 ^ Code.q.size := fun x => x.toNat_lt
    have hl : ∀ x : UInt32, x.toNat < 256 ^ Code.l.size := fun x => x.toNat_lt
    exact .cons (hq _) (.cons (hq _) (.cons (hq _) (.cons (hq _) (.cons (hq _) (.cons (hl _)
      (.cons (hl _) (.cons (hl _) (.cons (hl _) .nil))))))))
  obtain ⟨s, hs⟩ := pack_some (o := o) hfit
  unfold FiemapExtent.bytes
  rw [hs]
  rfl

theorem length_bytes (e : FiemapExtent) : (e.bytes o).length = sfe := length_pack (pack_values e)

theorem length_header {ns : List ℕ} {header : List UInt8} (h : pack o structFiemap ns = some header) :
    header.length = sf := length_pack h

theorem pack_header {a b c d e f : ℕ} (ha : a < 2 ^ 64) (hb : b < 2 ^ 64) (hc : c < 2 ^ 32)
    (hd : d < 2 ^ 32) (he : e < 2 ^ 32) (hf : f < 2 ^ 32) :
    ∃ s, pack o structFiemap [a, b, c, d, e, f] = some s :=
  pack_some (.cons ha (.cons hb (.cons hc (.cons hd (.cons he (.cons hf .nil))))))

/-! ## the array -/

def FiemapExtent.entry (keys : Keys) (shift : ℕ) (e : FiemapExtent) : Entry :=
  FiemapPy.entry keys (e.values.map fun v => v >>> shift)

theorem extentAt_succ (string : List UInt8) : extentAt o keys shift string ∘ Nat.succ =
    extentAt o keys shift (string.drop sfe) := by
  funext e
  show extentAt o keys shift string (e + 1) = _
  unfold extentAt
  rw [List.drop_drop, Nat.succ_mul, Nat.add_comm]

theorem parse_succ (string : List UInt8) : parseFiemapExtents o keys shift string (num + 1) =
    (extentAt o keys shift string 0).bind fun x =>
      (parseFiemapExtents o keys shift (string.drop sfe) num).map fun entries => x :: entries := by
  unfold parseFiemapExtents
  rw [List.range_succ_eq_map, List.mapM_cons, List.mapM_map, extentAt_succ]
  cases extentAt o keys shift string 0 with
  | none => rfl
  | some x => exact Option.map_eq_bind.symm

theorem extentAt_zero (e : FiemapExtent) :
    extentAt o keys shift (e.bytes o ++ rest) 0 = some (e.entry keys shift) := by
  unfold extentAt
  rw [Nat.zero_mul, List.drop_zero, List.take_left' (length_bytes e), unpack_pack (pack_values e)]
  rfl

theorem parse_array : parseFiemapExtents o keys shift (es.flatMap (FiemapExtent.bytes o) ++ rest)
    es.length = some (es.map (FiemapExtent.entry keys shift)) := by
  induction es with
  | nil => rfl
  | cons e es ih =>
    rw [List.length_cons, parse_succ, List.flatMap_cons, List.append_assoc, extentAt_zero,
      List.drop_left' (length_bytes e), ih]
    rfl

/-! ## the two calls -/

/-- room for an extent -/
def empty : FiemapExtent := ⟨0, 0, 0, (0, 0), 0, (0, 0, 0)⟩

theorem flatMap_empty (k : ℕ) : (List.replicate k empty).flatMap (FiemapExtent.bytes o) =
    List.replicate (k * sfe) 0 := by
  have hbytes : empty.bytes o = List.replicate sfe 0 := by
    cases o
    · rfl
    · rfl
  induction k with
  | zero =>
    rw [Nat.zero_mul]
    rfl
  | succ k ih =>
    rw [List.replicate_succ, List.flatMap_cons, ih, hbytes, List.replicate_append_replicate,
      Nat.succ_mul, Nat.add_comm]

/-- what comes back of a call with room for `num` extents -/
theorem fiemapIoctl_answer (fl mapped : UInt32) (es : List FiemapExtent) (hnum : num < 2 ^ 32) :
    ∃ header,
      pack o structFiemap [0, 0xffffffffffffffff, fl.toNat, mapped.toNat, num, 0] = some header ∧
      fiemapIoctl o (answer o fl mapped es) num = some (header ++
        (es ++ List.replicate (num - es.length) empty).flatMap (FiemapExtent.bytes o)) := by
  obtain ⟨buf, hbuf⟩ := pack_header (o := o) (a := 0) (b := 0xffffffffffffffff) (c := 0) (d := 0)
    (e := num) (f := 0) (by decide) (by decide) (by decide) (by decide) hnum (by decide)
  obtain ⟨header, hheader⟩ := pack_header (o := o) (a := 0) (b := 0xffffffffffffffff) (c := fl.toNat)
    (d := mapped.toNat) (e := num) (f := 0) (by decide) (by decide) fl.toNat_lt mapped.toNat_lt hnum
    (by decide)
  refine ⟨header, hheader, ?_⟩
  have hrest : (buf ++ List.replicate (num * sfe) 0).drop (sf + es.length * sfe) =
      (List.replicate (num - es.length) empty).flatMap (FiemapExtent.bytes o) := by
    rw [← List.drop_drop, List.drop_left' (length_header hbuf), List.drop_replicate, flatMap_empty,
      Nat.sub_mul]
  unfold fiemapIoctl
  rw [hbuf]
  show answer o fl mapped es (buf ++ List.replicate (num * sfe) 0) = _
  unfold answer
  rw [List.take_left' (length_header hbuf), unpack_pack hbuf, hrest, List.flatMap_append]
  show (pack o structFiemap [0, 0xffffffffffffffff, fl.toNat, mapped.toNat, num, 0]).bind _ = _
  rw [hheader]
  rfl

theorem parse_answer {fl mapped : UInt32} {header : List UInt8} (hes : es.length = num)
    (h : pack o structFiemap [0, 0xffffffffffffffff, fl.toNat, mapped.toNat, num, 0] = some header) :
    parseFiemap o keys shift (header ++ es.flatMap (FiemapExtent.bytes o)) =
      some ⟨0, 0xffffffffffffffff, fl.toNat, mapped.toNat, num,
        es.map (FiemapExtent.entry keys shift)⟩ := by
  have harray : parseFiemapExtents o keys shift (es.flatMap (FiemapExtent.bytes o)) num =
      some (es.map (FiemapExtent.entry keys shift)) := by
    rw [← hes, ← List.append_nil (es.flatMap _)]
    exact parse_array
  unfold parseFiemap
  rw [List.take_left' (length_header h), unpack_pack h, List.drop_left' (length_header h)]
  show (parseFiemapExtents o keys shift (es.flatMap (FiemapExtent.bytes o)) num).bind _ = _
  rw [harray]
  rfl

theorem fiemap_eq (keys : Keys) (shift : ℕ) (fl fl' : UInt32) {n : UInt32}
    (hes : es.length ≤ n.toNat) : ∃ res,
    fiemap o keys shift (answer o fl n []) (answer o fl' (UInt32.ofNat es.length) es) true =
      some (⟨0, 0xffffffffffffffff, fl'.toNat, (UInt32.ofNat es.length).toNat, n.toNat,
        (es ++ List.replicate (n.toNat - es.length) empty).map (FiemapExtent.entry keys shift)⟩,
        res) := by
  obtain ⟨header, hheader, hfirst⟩ := fiemapIoctl_answer (o := o) fl n [] (Nat.two_pow_pos 32)
  obtain ⟨header', hheader', hsecond⟩ :=
    fiemapIoctl_answer (o := o) fl' (UInt32.ofNat es.length) es n.toNat_lt
  have hcount : parseFiemap o keys shift (header ++ List.flatMap (FiemapExtent.bytes o) []) =
      some ⟨0, 0xffffffffffffffff, fl.toNat, n.toNat, 0, []⟩ := parse_answer rfl hheader
  have hlen : (es ++ List.replicate (n.toNat - es.length) empty).length = n.toNat := by
    rw [List.length_append, List.length_replicate]
    omega
  have hextents : parseFiemap o keys shift (header' ++
      (es ++ List.replicate (n.toNat - es.length) empty).flatMap (FiemapExtent.bytes o)) = _ :=
    parse_answer hlen hheader'
  refine ⟨header' ++ (es ++ List.replicate (n.toNat - es.length) empty).flatMap
    (FiemapExtent.bytes o), ?_⟩
  unfold fiemap
  rw [hfirst]
  show ((parseFiemap o keys shift (header ++ List.flatMap (FiemapExtent.bytes o) [])).bind
    fun info => fiemapIoctl o (answer o fl' (UInt32.ofNat es.length) es) info.mappedExtents).bind _ = _
  rw [hcount]
  show (fiemapIoctl o (answer o fl' (UInt32.ofNat es.length) es) n.toNat).bind _ = _
  rw [hsecond]
  show (parseFiemap o keys shift _).bind _ = _
  rw [hextents]
  rfl

/-- The room that the second call leaves empty is reported as extents. -/
theorem length_of_reports {fl fl' n : UInt32} (hes : es.length ≤ n.toNat)
    (h : Reports (fiemap o keys 0 (answer o fl n []) (answer o fl' (UInt32.ofNat es.length) es) true)
      es) : es.length = n.toNat := by
  obtain ⟨res, hout⟩ := fiemap_eq (o := o) keys 0 fl fl' hes
  obtain ⟨info, _, hinfo, hextents⟩ := h
  rw [hout] at hinfo
  cases hinfo
  have hlen := congrArg List.length hextents
  simp only [List.length_map, List.length_append, List.length_replicate] at hlen
  omega

theorem reports_iff {fl fl' n : UInt32} (hes : es.length ≤ n.toNat) :
    Reports (fiemap o keys 0 (answer o fl n []) (answer o fl' (UInt32.ofNat es.length) es) true) es ↔
      es.length = n.toNat := by
  refine ⟨length_of_reports hes, fun heq => ?_⟩
  obtain ⟨res, hout⟩ := fiemap_eq (o := o) keys 0 fl fl' hes
  refine ⟨_, _, hout, ?_⟩
  show List.map _ (List.map _ (es ++ List.replicate (n.toNat - es.length) empty)) = _
  rw [heq, Nat.sub_self, List.replicate_zero, List.append_nil, List.map_map]
  rfl

/-- two extents of a file, the second one encrypted and the last -/
def twoExtents : List FiemapExtent :=
  [⟨0, 1048576, 8192, (0, 0), 0, (0, 0, 0)⟩, ⟨8192, 5368709120, 4096, (0, 0), 0x81, (0, 0, 0)⟩]

theorem reports_iff_two : Reports (fiemap .little ⟨flags, .refl _⟩ 0 (answer .little 0 2 [])
    (answer .little 0 (UInt32.ofNat twoExtents.length) twoExtents) true) twoExtents := by
  have hes : twoExtents.length ≤ (2 : UInt32).toNat := by decide
  exact (reports_iff hes).mpr rfl

/-- The only extent has gone between the calls. -/
theorem not_reports : ¬ ∀ (o : Order) (keys : Keys) (fl fl' n : UInt32) (es : List FiemapExtent),
    es.length ≤ n.toNat → Reports
      (fiemap o keys 0 (answer o fl n []) (answer o fl' (UInt32.ofNat es.length) es) true) es := by
  intro h
  have hlen := length_of_reports (by decide) (h .little ⟨flags, .refl _⟩ 0 0 1 [] (by decide))
  exact absurd hlen (by decide)

end

end FiemapPy
