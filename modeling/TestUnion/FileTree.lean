import Mathlib.Data.Finmap
import Mathlib.Data.Finset.Card
import Mathlib.Data.List.Infix
import Mathlib.Data.List.Sort
import Mathlib.Tactic.Common

/-!
# File trees

A path lists its names from the innermost one outwards, so the parent of `n :: p` is `p`.

* `Tree ν`            a finite map from paths to nodes in which the root is a directory and every
                      parent of a node is a directory;
* `Tree.bare`         the tree of the root only;
* `Tree.put`, `Tree.erase`   the two changes of a tree, with `get_put` and `get_erase`;
* `Tree.prune`        the tree without a node and all below it;
* `Below p q`         `q` lies strictly below `p`;
* `Tree.below`        the number of nodes strictly below a path; it is smaller for a child;
* `Within p t t'`     `t` and `t'` differ strictly below `p` only;
* `Listing ν`         an order in which the children of a directory are listed;
* `Listing.ordered`   the one by the names, with `inOrder` for any finite set.
-/

set_option linter.unusedSectionVars false

namespace FileTree

/-- a file is known by its size -/
inductive Node where
  | file (size : ℕ)
  | dir
  deriving DecidableEq, Repr

structure Tree (ν : Type) [DecidableEq ν] where
  nodes : Finmap fun _ : List ν => Node
  root : nodes.lookup [] = some .dir
  closed : ∀ n p, n :: p ∈ nodes → nodes.lookup p = some .dir

section
variable {ν : Type} [DecidableEq ν]

/-- the root directory, and nothing in it -/
def Tree.bare : Tree ν where
  nodes := Finmap.singleton [] .dir
  root := rfl
  closed n p h := absurd ((Finmap.mem_singleton _ _ _).mp h) (List.cons_ne_nil n p)

def Tree.get (t : Tree ν) (p : List ν) : Option Node := t.nodes.lookup p

/-- the size of the file at a path -/
def Tree.size (t : Tree ν) (p : List ν) : Option ℕ :=
  match t.get p with
  | some (.file k) => some k
  | _ => none

variable {t t' t'' : Tree ν} {n : ν} {p q : List ν}

theorem Tree.ext_get (h : ∀ p, t.get p = t'.get p) : t = t' := by
  obtain ⟨nodes, _, _⟩ := t
  obtain ⟨nodes', _, _⟩ := t'
  have hn : nodes = nodes' := Finmap.ext_lookup h
  subst hn
  rfl

theorem Tree.get_parent (h : t.get (n :: p) ≠ none) : t.get p = some .dir := by
  apply t.closed n p
  rw [← Finmap.lookup_isSome]
  exact Option.isSome_iff_ne_none.mpr h

theorem Tree.get_append {r : List ν} (h : t.get (r ++ p) ≠ none) (hr : r ≠ []) :
    t.get p = some .dir := by
  induction r with
  | nil => exact absurd rfl hr
  | cons m r ih =>
    have hd : t.get (r ++ p) = some .dir := Tree.get_parent h
    cases r with
    | nil => exact hd
    | cons m' r => exact ih (by rw [hd]; exact Option.some_ne_none _) (List.cons_ne_nil _ _)

/-- everything above a node is a directory -/
theorem Tree.get_of_suffix (h : t.get q ≠ none) (hs : p <:+ q) (hne : p ≠ q) :
    t.get p = some .dir := by
  obtain ⟨r, rfl⟩ := hs
  apply Tree.get_append h
  rintro rfl
  exact hne rfl

theorem Tree.get_ne_none_of_suffix (h : t.get q ≠ none) (hs : p <:+ q) : t.get p ≠ none := by
  by_cases hpq : p = q
  · rw [hpq]
    exact h
  · rw [Tree.get_of_suffix h hs hpq]
    exact Option.some_ne_none _

theorem Tree.size_eq_some {k : ℕ} : t.size p = some k ↔ t.get p = some (.file k) := by
  unfold Tree.size
  split
  · next h => rw [h]; simp
  · next h =>
    refine ⟨?_, ?_⟩
    · intro hx
      cases hx
    · intro hx
      exact absurd hx (h k)

theorem Tree.size_congr (h : t'.get p = t.get p) : t'.size p = t.size p := by
  unfold Tree.size
  rw [h]

/-! ## the two changes -/

/-- a new node, or a new size of a file -/
def Tree.put (t : Tree ν) (n : ν) (p : List ν) (x : Node) (hp : t.get p = some .dir)
    (hx : t.get (n :: p) ≠ some .dir) : Tree ν where
  nodes := t.nodes.insert (n :: p) x
  root := by
    rw [Finmap.lookup_insert_of_ne _ (List.cons_ne_nil n p).symm]
    exact t.root
  closed := by
    intro m q hq
    have hne : q ≠ n :: p := by
      rintro rfl
      rcases Finmap.mem_insert.mp hq with heq | hq
      · exact absurd (congrArg List.length heq) (by simp)
      · exact hx (t.closed _ _ hq)
    rw [Finmap.lookup_insert_of_ne _ hne]
    rcases Finmap.mem_insert.mp hq with heq | hq
    · rw [(List.cons.inj heq).2]
      exact hp
    · exact t.closed _ _ hq

@[simp] theorem Tree.get_put {x : Node} (hp : t.get p = some .dir) (hx : t.get (n :: p) ≠ some .dir)
    (q : List ν) : (t.put n p x hp hx).get q = if q = n :: p then some x else t.get q := by
  split
  · next h =>
    rw [h]
    exact Finmap.lookup_insert _
  · next h => exact Finmap.lookup_insert_of_ne _ h

/-- a node without children is removed -/
def Tree.erase (t : Tree ν) (n : ν) (p : List ν) (h : ∀ m, t.get (m :: n :: p) = none) :
    Tree ν where
  nodes := t.nodes.erase (n :: p)
  root := by
    rw [Finmap.lookup_erase_ne (List.cons_ne_nil n p).symm]
    exact t.root
  closed := by
    intro m q hq
    have hmem := (Finmap.mem_erase.mp hq).2
    have hne : q ≠ n :: p := by
      rintro rfl
      exact Finmap.lookup_eq_none.mp (h m) hmem
    rw [Finmap.lookup_erase_ne hne]
    exact t.closed _ _ hmem

@[simp] theorem Tree.get_erase (h : ∀ m, t.get (m :: n :: p) = none) (q : List ν) :
    (t.erase n p h).get q = if q = n :: p then none else t.get q := by
  split
  · next hq =>
    rw [hq]
    exact Finmap.lookup_erase _ _
  · next hq => exact Finmap.lookup_erase_ne hq

/-- a node and everything below it are removed -/
def Tree.prune (t : Tree ν) (n : ν) (p : List ν) : Tree ν where
  nodes := Finmap.keysLookupEquiv.symm ⟨(t.nodes.keys.filter fun q => ¬ n :: p <:+ q,
    fun q => if n :: p <:+ q then none else t.nodes.lookup q), by
      intro q
      dsimp only
      rw [Finset.mem_filter, Finmap.mem_keys, ← Finmap.lookup_isSome]
      split_ifs with h <;> simp [h]⟩
  root := by
    rw [Finmap.keysLookupEquiv_symm_apply_lookup]
    dsimp only
    rw [if_neg fun h => List.cons_ne_nil n p (List.suffix_nil.mp h)]
    exact t.root
  closed := by
    intro m q hq
    rw [← Finmap.lookup_isSome, Finmap.keysLookupEquiv_symm_apply_lookup] at hq
    rw [Finmap.keysLookupEquiv_symm_apply_lookup]
    dsimp only at hq ⊢
    split at hq
    · cases hq
    · next hm =>
      rw [if_neg fun h => hm (h.trans (List.suffix_cons m q))]
      exact t.closed m q (Finmap.lookup_isSome.mp hq)

@[simp] theorem Tree.get_prune (q : List ν) :
    (t.prune n p).get q = if n :: p <:+ q then none else t.get q :=
  Finmap.keysLookupEquiv_symm_apply_lookup _ q

theorem Tree.no_children_of_ne_dir (h : t.get p ≠ some .dir) (m : ν) : t.get (m :: p) = none := by
  by_contra hm
  exact h (Tree.get_parent hm)

/-! ## below a path -/

def Below (p q : List ν) : Prop := p <:+ q ∧ q ≠ p

instance (p q : List ν) : Decidable (Below p q) := by
  unfold Below
  infer_instance

theorem below_iff : Below p q ↔ ∃ r, r ≠ [] ∧ q = r ++ p := by
  refine ⟨?_, ?_⟩
  · intro hex
    obtain ⟨⟨r, rfl⟩, hne⟩ := hex
    refine ⟨r, ?_, rfl⟩
    rintro rfl
    exact hne rfl
  · intro hall
    obtain ⟨r, hr, rfl⟩ := hall
    exact ⟨⟨r, rfl⟩, fun h => hr (List.append_left_eq_self.mp h)⟩

theorem below_append {r : List ν} (hr : r ≠ []) : Below p (r ++ p) := below_iff.mpr ⟨r, hr, rfl⟩

theorem below_cons : Below p (n :: p) := below_append (r := [n]) (List.cons_ne_nil _ _)

theorem not_below_self : ¬ Below p p := fun h => h.2 rfl

theorem Below.length_lt (h : Below p q) : p.length < q.length := by
  obtain ⟨r, hr, rfl⟩ := below_iff.mp h
  rw [List.length_append]
  have := List.length_pos_iff.mpr hr
  omega

theorem Below.trans {r : List ν} (h : Below p q) (h' : q <:+ r) : Below p r := by
  refine ⟨h.1.trans h', ?_⟩
  rintro rfl
  have h1 := h.length_lt
  have h2 := h'.length_le
  omega

theorem Below.of_suffix {r : List ν} (h : p <:+ q) (h' : Below q r) : Below p r := by
  refine ⟨h.trans h'.1, ?_⟩
  rintro rfl
  have h1 := h'.length_lt
  have h2 := h.length_le
  omega

/-- what lies below `p` is a child of `p` or lies below one -/
theorem Below.child (h : Below p q) : ∃ m, m :: p <:+ q := by
  obtain ⟨r, hr, rfl⟩ := below_iff.mp h
  refine ⟨r.getLast hr, r.dropLast, ?_⟩
  rw [List.append_cons, List.dropLast_concat_getLast]

theorem child_unique {m m' : ν} (h : m :: p <:+ q) (h' : m' :: p <:+ q) : m = m' := by
  rcases List.suffix_or_suffix_of_suffix h h' with hs | hs
  · exact (List.cons.inj (hs.eq_of_length (by simp))).1
  · exact (List.cons.inj (hs.eq_of_length (by simp))).1.symm

/-- no node lies below the path -/
def Tree.Childless (t : Tree ν) (p : List ν) : Prop := ∀ q ∈ t.nodes.keys, ¬ Below p q

instance (t : Tree ν) (p : List ν) : Decidable (t.Childless p) := by
  unfold Tree.Childless
  infer_instance

theorem Tree.childless_iff : t.Childless p ↔ ∀ m, t.get (m :: p) = none := by
  refine ⟨?_, ?_⟩
  · intro h m
    by_contra hm
    apply h (m :: p) _ below_cons
    rw [Finmap.mem_keys, ← Finmap.lookup_isSome]
    exact Option.isSome_iff_ne_none.mpr hm
  · intro h q hq hb
    obtain ⟨m, hm⟩ := hb.child
    rw [Finmap.mem_keys, ← Finmap.lookup_isSome] at hq
    exact Tree.get_ne_none_of_suffix (Option.isSome_iff_ne_none.mp hq) hm (h m)

/-- the number of nodes strictly below a path -/
def Tree.below (t : Tree ν) (p : List ν) : ℕ := (t.nodes.keys.filter (Below p)).card

theorem Tree.below_child (h : t.get (n :: p) ≠ none) : t.below (n :: p) < t.below p := by
  unfold Tree.below
  apply Finset.card_lt_card
  rw [Finset.ssubset_iff_of_subset]
  · refine ⟨n :: p, ?_, ?_⟩
    · rw [Finset.mem_filter, Finmap.mem_keys, ← Finmap.lookup_isSome]
      exact ⟨Option.isSome_iff_ne_none.mpr h, below_cons⟩
    · rw [Finset.mem_filter]
      exact fun hx => not_below_self hx.2
  · intro q hq
    rw [Finset.mem_filter] at hq ⊢
    exact ⟨hq.1, below_cons.trans hq.2.1⟩

theorem Tree.below_le (h : ∀ q, Below p q → t'.get q ≠ none → t.get q ≠ none) :
    t'.below p ≤ t.below p := by
  unfold Tree.below
  apply Finset.card_le_card
  intro q hq
  rw [Finset.mem_filter, Finmap.mem_keys, ← Finmap.lookup_isSome] at hq ⊢
  exact ⟨Option.isSome_iff_ne_none.mpr (h q hq.2 (Option.isSome_iff_ne_none.mp hq.1)), hq.2⟩

/-! ## changes below a path -/

def Within (p : List ν) (t t' : Tree ν) : Prop := ∀ q, ¬ Below p q → t'.get q = t.get q

theorem Within.refl (p : List ν) (t : Tree ν) : Within p t t := fun _ _ => rfl

theorem Within.trans (h : Within p t t') (h' : Within p t' t'') : Within p t t'' :=
  fun q hq => (h' q hq).trans (h q hq)

theorem Within.mono (h : Within q t t') (hs : p <:+ q) : Within p t t' :=
  fun r hr => h r fun hb => hr (hb.of_suffix hs)

theorem within_erase (hc : ∀ m, t.get (m :: n :: p) = none) (h : q <:+ p) :
    Within q t (t.erase n p hc) := by
  intro r hr
  rw [Tree.get_erase, if_neg]
  rintro rfl
  exact hr (Below.of_suffix h below_cons)

/-- some directories that were absent are made on the way to `top` -/
def AddsDirs (top : List ν) (t t' : Tree ν) : Prop :=
  ∀ q, t'.get q = t.get q ∨ (t.get q = none ∧ t'.get q = some .dir ∧ q <:+ top)

theorem AddsDirs.refl (top : List ν) (t : Tree ν) : AddsDirs top t t := fun _ => .inl rfl

theorem AddsDirs.trans {top : List ν} (h : AddsDirs top t t') (h' : AddsDirs top t' t'') :
    AddsDirs top t t'' := by
  intro q
  rcases h q with h1 | ⟨h1, h2, h3⟩
  · rw [← h1]
    exact h' q
  · rcases h' q with h4 | ⟨h4, _⟩
    · exact .inr ⟨h1, h4.trans h2, h3⟩
    · rw [h2] at h4
      cases h4

theorem AddsDirs.mono {top top' : List ν} (h : AddsDirs top t t') (hs : top <:+ top') :
    AddsDirs top' t t' :=
  fun q => (h q).imp id fun ⟨h1, h2, h3⟩ => ⟨h1, h2, h3.trans hs⟩

theorem AddsDirs.size {top : List ν} (h : AddsDirs top t t') (q : List ν) :
    t'.size q = t.size q := by
  rcases h q with h1 | ⟨h1, h2, _⟩
  · exact Tree.size_congr h1
  · unfold Tree.size
    rw [h1, h2]

/-- above an existing node nothing is made -/
theorem AddsDirs.within {top : List ν} (h : AddsDirs top t t') (hs : p <:+ top)
    (hp : t.get p ≠ none) : Within p t t' := by
  intro q hq
  rcases h q with h1 | ⟨h1, _, h3⟩
  · exact h1
  · rcases List.suffix_or_suffix_of_suffix hs h3 with hpq | hqp
    · have heq : q = p := by
        by_contra hne
        exact hq ⟨hpq, hne⟩
      rw [heq] at h1
      exact absurd h1 hp
    · exact absurd h1 (Tree.get_ne_none_of_suffix hp hqp)

end

/-! ## listings -/

structure Listing (ν : Type) [DecidableEq ν] where
  list : Tree ν → List ν → List ν
  nodup : ∀ t p, (list t p).Nodup
  mem : ∀ t p n, n ∈ list t p ↔ t.get (n :: p) ≠ none

section
variable {α : Type} [LinearOrder α]

/-- the elements of a finite set, in order -/
def inOrder (s : Finset α) : List α :=
  Quot.liftOn s.1 (List.insertionSort (· ≤ ·)) fun l l' h =>
    List.Perm.eq_of_pairwise' (List.pairwise_insertionSort _ _) (List.pairwise_insertionSort _ _)
      (((List.perm_insertionSort _ l).trans h).trans (List.perm_insertionSort _ l').symm)

theorem coe_inOrder (s : Finset α) : (inOrder s : Multiset α) = s.1 := by
  obtain ⟨⟨l⟩, _⟩ := s
  exact Quot.sound (List.perm_insertionSort _ l)

@[simp] theorem mem_inOrder {s : Finset α} {x : α} : x ∈ inOrder s ↔ x ∈ s := by
  rw [← Multiset.mem_coe, coe_inOrder]
  rfl

theorem nodup_inOrder (s : Finset α) : (inOrder s).Nodup := by
  rw [← Multiset.coe_nodup, coe_inOrder]
  exact s.2

end

/-- the listing in the order of the names -/
def Listing.ordered (ν : Type) [DecidableEq ν] [LinearOrder ν] : Listing ν where
  list t p := inOrder ((t.nodes.keys.filter fun q => q.tail = p).biUnion fun q => q.head?.toFinset)
  nodup t p := nodup_inOrder _
  mem t p n := by
    have hmem (q : List ν) : q ∈ t.nodes.keys ↔ t.get q ≠ none := by
      rw [Finmap.mem_keys, ← Finmap.lookup_isSome]
      exact Option.isSome_iff_ne_none
    rw [mem_inOrder, Finset.mem_biUnion]
    refine ⟨?_, ?_⟩
    · intro hex
      obtain ⟨q, hq, hn⟩ := hex
      obtain ⟨hkey, rfl⟩ := Finset.mem_filter.mp hq
      rw [Option.mem_toFinset] at hn
      rw [List.cons_head?_tail hn]
      exact (hmem q).mp hkey
    · intro h
      refine ⟨n :: p, Finset.mem_filter.mpr ⟨(hmem _).mpr h, rfl⟩, ?_⟩
      rw [Option.mem_toFinset]
      rfl

end FileTree
